import SharedSequence.Proofs.Leaves
import SharedSequence.Proofs.Words

namespace SharedSequence

open Guarded

variable {α β γ : Type}

/-- Computations on words that allocate nodes. -/
abbrev GuardedM := ExceptT Fault StoreM

/-- The guarded computation makes what the other one makes, from all stores and without a fault. -/
def Faultless (guarded : GuardedM β) (plain : StoreM β) : Prop :=
  ∀ store, guarded.run.run store = (.ok (plain.run store).1, (plain.run store).2)

theorem Faultless.pure (b : β) : Faultless (Pure.pure b) (Pure.pure b) :=
  fun _ => rfl

theorem Faultless.lift (plain : StoreM β) : Faultless (liftM plain) plain :=
  fun _ => rfl

theorem Faultless.bind {guarded : GuardedM β} {plain : StoreM β} {next : β → GuardedM γ}
    {plainNext : β → StoreM γ} {P : β → Prop} (h : Faultless guarded plain) (hp : Yields plain P)
    (hn : ∀ b, P b → Faultless (next b) (plainNext b)) :
    Faultless (guarded >>= next) (plain >>= plainNext) := by
  intro store
  rw [run_bind_ok (h store)]
  exact hn _ (hp store) _

theorem Faultless.node (node : Cell → Sequence α) :
    Faultless (do return node (← allocate)) (do return node (← allocate)) :=
  fun _ => rfl

theorem Faultless.ok {guarded : Guarded γ} {c : γ} {next : γ → GuardedM β} {plain : StoreM β}
    (h : guarded = .ok c) (hn : Faultless (next c) plain) :
    Faultless (liftM guarded >>= next) plain := by
  rw [h]
  exact hn

namespace Sequence

def guardedShape : Sequence α → Guarded Nat
  | link _ left right bias _ =>
    match bias with
    | .right => do add (← right.guardedShape) 1
    | .left | .neutral => do add (← left.guardedShape) 1
  | _ => return 0

def guardedRotate (first second : Sequence α) : Guarded (Option (JoinPart α × JoinPart α)) := do
  let firstShape ← first.guardedShape
  let secondShape ← second.guardedShape
  if (← add firstShape 1) < secondShape then return rotateLeft first second
  else if (← add secondShape 1) < firstShape then return rotateRight second first
  else return none

def guardedLink (left right : Sequence α) : GuardedM (Sequence α) := do
  let leftShape ← left.guardedShape
  let rightShape ← right.guardedShape
  let count ← add left.length right.length
  return .link (← allocate) left right (.ofShapes leftShape rightShape) count

def guardedResolve (join : Sequence α → Sequence α → GuardedM (Sequence α)) :
    JoinPart α → GuardedM (Sequence α)
  | .whole s => return s
  | .pair left right => join left right

def guardedJoinWithin : Nat → Sequence α → Sequence α → GuardedM (Sequence α)
  | 0, _, _ => throw .unfinished
  | fuel + 1, first, second => do
    match ← guardedRotate first second with
    | none => guardedLink first second
    | some (low, high) => do
      let low ← guardedResolve (guardedJoinWithin fuel) low
      let high ← guardedResolve (guardedJoinWithin fuel) high
      guardedJoinWithin fuel low high

def guardedConcat (a b : Sequence α) : GuardedM (Sequence α) :=
  if b.isEmpty then return a
  else if a.isEmpty then return b
  else guardedJoinWithin (joinFuel a b) a b

def guardedCut (s : Sequence α) (offset length : Nat) : GuardedM (Sequence α) := do
  if offset = 0 ∧ length = s.length then return s
  else if length = 0 then empty
  else
    match s with
    | nil _ => empty
    | run _ value _ => return .run (← allocate) value length
    | flat _ items start _ => do
      let start ← add start offset
      return .flat (← allocate) items start length
    | indexed _ _ _ _ => return .window (← allocate) s offset length
    | window _ base start _ => base.guardedCut (← add start offset) length
    | reversed _ base => do
      let cut ← base.guardedCut (← mirrored base.length offset length) length
      cut.reverse
    | link _ left right _ _ => do
      match ← LinkWindow.split left.length offset length with
      | .right offset => right.guardedCut offset length
      | .left => left.guardedCut offset length
      | .both low high => do
        let low ← left.guardedCut offset low
        let high ← right.guardedCut 0 high
        low.guardedConcat high

variable [BEq α] {hashing : Option (ElementHash α)} {a b s : Sequence α}

/-- Every link on the biased walk has an element beside it. -/
theorem WellFormed.shape_lt_length (h : s.WellFormed hashing) (hs : 0 < s.length) :
    s.shape < s.length := by
  induction s with
  | nil | run | flat | indexed | window | reversed => exact hs
  | link cell left right bias count ihl ihr =>
    obtain ⟨⟨hf, hl, hr, hc⟩, hwl, hwr⟩ := wellFormed_link.mp h
    have hls := ihl hwl hl
    have hrs := ihr hwr hr
    rw [shape_link cell count hf, length]
    omega

theorem WellFormed.guardedShape_eq (h : s.WellFormed hashing) (hs : s.length < wordSize) :
    s.guardedShape = .ok s.shape := by
  induction s with
  | nil | run | flat | indexed | window | reversed => rfl
  | link cell left right bias count ihl ihr =>
    obtain ⟨⟨-, hl, hr, hc⟩, hwl, hwr⟩ := wellFormed_link.mp h
    have hls := hwl.shape_lt_length hl
    have hrs := hwr.shape_lt_length hr
    simp only [Sequence.length] at hs
    cases bias with
    | left | neutral =>
      simp only [guardedShape, shape, ihl hwl (by omega), ok_bind]
      exact add_eq (by omega)
    | right =>
      simp only [guardedShape, shape, ihr hwr (by omega), ok_bind]
      exact add_eq (by omega)

/-- Well-formed and not empty, as the operands of joins are. -/
def Joinable (hashing : Option (ElementHash α)) (s : Sequence α) : Prop :=
  s.WellFormed hashing ∧ 0 < s.length

theorem WellFormed.length_eq_leaves (h : s.WellFormed hashing) :
    s.length = (s.leaves.flatMap toList).length := by
  rw [← toList_eq_flatMap_leaves, h.length_toList]

theorem Joinable.rotate_eq (ha : a.Joinable hashing) (hb : b.Joinable hashing)
    (h : a.length + b.length < wordSize) : guardedRotate a b = .ok (rotate a b) := by
  have hsa := ha.1.shape_lt_length ha.2
  have hsb := hb.1.shape_lt_length hb.2
  rw [guardedRotate, ha.1.guardedShape_eq (by omega), ok_bind, hb.1.guardedShape_eq (by omega),
    ok_bind, add_eq (by omega), ok_bind, rotate]
  split
  · rfl
  · rw [add_eq (by omega), ok_bind]
    split <;> rfl

theorem Joinable.link_eq (ha : a.Joinable hashing) (hb : b.Joinable hashing)
    (h : a.length + b.length < wordSize) (store : Store) :
    (guardedLink a b).run.run store = (.ok (linkIn store a b), store.extend) := by
  rw [guardedLink, ha.1.guardedShape_eq (by omega), hb.1.guardedShape_eq (by omega), add_eq h]
  rfl

def partLength (part : JoinPart α) : Nat :=
  (part.leaves.flatMap toList).length

theorem Joinable.partLength_pair (ha : a.Joinable hashing) (hb : b.Joinable hashing) :
    partLength (.pair a b) = a.length + b.length := by
  rw [partLength, JoinPart.leaves, List.flatMap_append, List.length_append,
    ← ha.1.length_eq_leaves, ← hb.1.length_eq_leaves]

omit [BEq α] in
/-- The nested joins of a join have no more elements than it has. -/
theorem partLength_rotate {low high : JoinPart α} (h : rotate a b = some (low, high)) :
    partLength low + partLength high = partLength (.pair a b) := by
  rw [partLength, partLength, partLength, JoinPart.leaves, ← rotate_leaves h, List.flatMap_append,
    List.length_append]

theorem Resolves.guarded {part : JoinPart α} (h : Resolves depth part store s store')
    (hp : part.All (Joinable hashing)) (hl : partLength part < wordSize) (hf : depth ≤ fuel) :
    (guardedResolve (guardedJoinWithin fuel) part).run.run store = (.ok s, store') := by
  induction h generalizing fuel with
  | whole => rfl
  | @link a b depth store h =>
    obtain ⟨fuel, rfl⟩ : ∃ n, fuel = n + 1 := ⟨fuel - 1, by omega⟩
    obtain ⟨ha, hb⟩ := hp
    rw [ha.partLength_pair hb] at hl
    change (guardedJoinWithin (fuel + 1) a b).run.run store = _
    rw [guardedJoinWithin, ha.rotate_eq hb hl, h]
    exact ha.link_eq hb hl store
  | @rotated a b low high depth store₀ l store₁ r store₂ s store₃ h hlow hhigh _ ihl ihh iho =>
    obtain ⟨fuel, rfl⟩ : ∃ n, fuel = n + 1 := ⟨fuel - 1, by omega⟩
    obtain ⟨ha, hb⟩ := hp
    obtain ⟨hpl, hph⟩ := rotate_all shared_wellFormed.children ha hb h
    have hsplit := partLength_rotate h
    have hnext : partLength (.pair l r) = partLength low + partLength high := by
      rw [partLength, JoinPart.leaves, hlow.leaves, hhigh.leaves, List.flatMap_append,
        List.length_append]
      rfl
    have hl' := hl
    rw [ha.partLength_pair hb] at hl'
    change (guardedJoinWithin (fuel + 1) a b).run.run store₀ = _
    rw [guardedJoinWithin, ha.rotate_eq hb hl', h]
    change (guardedResolve _ low >>= _).run.run store₀ = _
    rw [run_bind_ok (ihl hpl (by omega) (by omega)), run_bind_ok (ihh hph (by omega) (by omega))]
    have hlr : (JoinPart.pair l r).All (Joinable hashing) :=
      ⟨hlow.all shared_wellFormed hpl, hhigh.all shared_wellFormed hph⟩
    exact iho hlr (by omega) (by omega)

theorem WellFormed.faultless_concat (ha : a.WellFormed hashing) (hb : b.WellFormed hashing)
    (h : a.length + b.length < wordSize) : Faultless (a.guardedConcat b) (a.concat b) := by
  unfold guardedConcat Sequence.concat
  split
  · exact .pure a
  · split
    · exact .pure b
    · rename_i hbe hae
      have hpa : a.Joinable hashing := ⟨ha, Nat.pos_of_ne_zero fun h0 => hae (beq_iff_eq.mpr h0)⟩
      have hpb : b.Joinable hashing := ⟨hb, Nat.pos_of_ne_zero fun h0 => hbe (beq_iff_eq.mpr h0)⟩
      intro store
      obtain ⟨s, store', hs, -, hr⟩ := ha.balanced.join_resolves hb.balanced store
      rw [hr]
      exact hs.guarded ⟨hpa, hpb⟩ ((hpa.partLength_pair hpb).symm ▸ h) (Nat.le_refl _)

theorem WellFormed.length_cut {offset length : Nat} (h : s.WellFormed hashing)
    (hw : offset + length ≤ s.length) :
    Yields (s.cut offset length) fun t => t.WellFormed hashing ∧ t.length = length := by
  intro store
  have ht := h.cut hw store
  apply And.intro ht
  rw [← ht.length_toList, h.toList_cut hw store, length_slots]
  rw [h.length_toList]
  exact hw

theorem Fits.faultless_cut {offset length : Nat} (h : s.Fits hashing)
    (hw : offset + length ≤ s.length) :
    Faultless (s.guardedCut offset length) (s.cut offset length) := by
  induction s generalizing offset length with
  | nil cell =>
    unfold guardedCut Sequence.cut
    split
    · exact .pure _
    · split <;> exact .lift _
  | run cell value count =>
    unfold guardedCut Sequence.cut
    split
    · exact .pure _
    · split
      · exact .lift _
      · exact .node (.run · value length)
  | indexed cell items index hasher =>
    unfold guardedCut Sequence.cut
    split
    · exact .pure _
    · split
      · exact .lift _
      · exact .node (.window · (.indexed cell items index hasher) offset length)
  | flat cell items start count =>
    obtain ⟨hs, hl⟩ := h.flat
    simp only [Sequence.length] at hw
    unfold guardedCut Sequence.cut
    split
    · exact .pure _
    · split
      · exact .lift _
      · exact .ok (add_eq (by omega)) (.node (.flat · items (start + offset) length))
  | window cell base start count ih =>
    obtain ⟨hb, hl⟩ := h.window
    have hs := hb.short
    simp only [Sequence.length] at hw
    unfold guardedCut Sequence.cut
    split
    · exact .pure _
    · split
      · exact .lift _
      · exact .ok (add_eq (by omega)) (ih hb (by omega))
  | reversed cell base ih =>
    simp only [Sequence.length] at hw
    have hi : base.length - offset - length + length ≤ base.length := by omega
    unfold guardedCut Sequence.cut
    split
    · exact .pure _
    · split
      · exact .lift _
      · apply Faultless.ok (mirrored_eq hw)
        exact (ih h.reversed hi).bind (h.reversed.wellFormed.cut hi) fun cut _ => .lift cut.reverse
  | link cell left right bias count ihl ihr =>
    obtain ⟨hl, hr, hc⟩ := h.link
    have hs : count < wordSize := h.short
    simp only [Sequence.length] at hw
    unfold guardedCut Sequence.cut
    split
    · exact .pure _
    · split
      · exact .lift _
      · dsimp only
        by_cases ho : left.length ≤ offset
        · rw [if_pos ho]
          exact .ok (LinkWindow.split_right ho) (ihr hr (by omega))
        · rw [if_neg ho]
          by_cases he : offset + length ≤ left.length
          · rw [if_pos he]
            exact .ok (LinkWindow.split_left (by omega) he hl.short) (ihl hl he)
          · have hlow : offset + (left.length - offset) ≤ left.length := by omega
            have hhigh : 0 + (offset + length - left.length) ≤ right.length := by omega
            rw [if_neg he]
            apply Faultless.ok (LinkWindow.split_both (by omega) (by omega) (by omega))
            apply (ihl hl hlow).bind (hl.wellFormed.length_cut hlow)
            rintro low ⟨hlow, hll⟩
            apply (ihr hr hhigh).bind (hr.wellFormed.length_cut hhigh)
            rintro high ⟨hhigh, hhl⟩
            exact hlow.faultless_concat hhigh (by omega)

end Sequence

end SharedSequence
