import SharedSequence.Proofs.Nodes
import SharedSequence.Proofs.Postcondition

namespace SharedSequence

/-- What the bias of a balanced link says about the shapes of its children. -/
def Bias.Fits : Bias → Nat → Nat → Prop
  | .left, m, n => m = n + 1
  | .right, m, n => n = m + 1
  | .neutral, m, n => m = n

theorem Bias.ofShapes_fits {m n : Nat} (hm : m ≤ n + 1) (hn : n ≤ m + 1) :
    (ofShapes m n).Fits m n := by
  unfold ofShapes
  rcases Nat.lt_trichotomy m n with h | h | h
  · rw [Nat.compare_eq_lt.mpr h]
    exact Nat.le_antisymm hn h
  · rw [Nat.compare_eq_eq.mpr h]
    exact h
  · rw [Nat.compare_eq_gt.mpr h]
    exact Nat.le_antisymm hm h

namespace Sequence

variable {α : Type} {P Q R : Sequence α → Prop}

def Near (a b : Sequence α) : Prop :=
  a.shape ≤ b.shape + 1 ∧ b.shape ≤ a.shape + 1

def BalancedNode : Sequence α → Prop
  | link _ left right bias _ => bias.Fits left.shape right.shape
  | _ => True

/-- All links of the tree are balanced, also those below views. -/
def Balanced (s : Sequence α) : Prop :=
  s.Everywhere BalancedNode

@[simp]
theorem balanced_link {cell : Cell} {left right : Sequence α} {bias : Bias} {count : Nat} :
    (link cell left right bias count).Balanced ↔
      bias.Fits left.shape right.shape ∧ left.Balanced ∧ right.Balanced :=
  everywhere_link

theorem near_of_fits {left right : Sequence α} {bias : Bias}
    (h : bias.Fits left.shape right.shape) : left.Near right := by
  cases bias <;> simp only [Bias.Fits] at h <;> exact ⟨by omega, by omega⟩

/-- The walk along a fitting bias goes down the higher child. -/
theorem shape_link (cell : Cell) {left right : Sequence α} {bias : Bias} (count : Nat)
    (h : bias.Fits left.shape right.shape) :
    (link cell left right bias count).shape = max left.shape right.shape + 1 := by
  cases bias <;> simp only [shape, Bias.Fits] at * <;> omega

def linkIn (store : Store) (left right : Sequence α) : Sequence α :=
  link store.memo.size left right (.ofShapes left.shape right.shape) (left.length + right.length)

/-- From a store, a part resolves to a sequence and leaves another store; joins nest at most as
deep as the number says. -/
inductive Resolves : Nat → JoinPart α → Store → Sequence α → Store → Prop where
  | whole (depth : Nat) (s : Sequence α) (store : Store) :
      Resolves depth (.whole s) store s store
  | link (depth : Nat) (store : Store) (h : rotate a b = none) :
      Resolves (depth + 1) (.pair a b) store (linkIn store a b) store.extend
  | rotated (h : rotate a b = some (low, high)) (hl : Resolves depth low store₀ l store₁)
      (hh : Resolves depth high store₁ r store₂) (ho : Resolves depth (.pair l r) store₂ s store₃) :
      Resolves (depth + 1) (.pair a b) store₀ s store₃

theorem run_bind_some {β γ : Type} {x : OptionT StoreM β} {next : β → OptionT StoreM γ} {b : β}
    {store store' : Store} (h : x.run.run store = (some b, store')) :
    (x >>= next).run.run store = (next b).run.run store' := by
  simp only [OptionT.run_bind, Option.elimM, StateT.run_bind, h]
  rfl

/-- The program computes what the part resolves to, with any fuel that covers the depth. -/
theorem Resolves.run {part : JoinPart α} (h : Resolves depth part store s store')
    (hf : depth ≤ fuel) : (part.resolve (joinWithin fuel)).run.run store = (some s, store') := by
  induction h generalizing fuel with
  | whole => rfl
  | @link a b depth store h =>
    obtain ⟨fuel, rfl⟩ : ∃ n, fuel = n + 1 := ⟨fuel - 1, by omega⟩
    change (joinWithin (fuel + 1) a b).run.run store = _
    simp only [joinWithin, h]
    rfl
  | @rotated a b low high depth store₀ l store₁ r store₂ s store₃ h _ _ _ ihl ihh iho =>
    obtain ⟨fuel, rfl⟩ : ∃ n, fuel = n + 1 := ⟨fuel - 1, by omega⟩
    change (joinWithin (fuel + 1) a b).run.run store₀ = _
    simp only [joinWithin, h]
    rw [run_bind_some (ihl (by omega)), run_bind_some (ihh (by omega))]
    exact iho (by omega)

theorem Resolves.mono {part : JoinPart α} (h : Resolves depth part store s store')
    (hd : depth ≤ depth') : Resolves depth' part store s store' := by
  induction h generalizing depth' with
  | whole depth s store => exact .whole depth' s store
  | link depth store h =>
    obtain ⟨depth', rfl⟩ : ∃ n, depth' = n + 1 := ⟨depth' - 1, by omega⟩
    exact .link depth' store h
  | rotated h _ _ _ ihl ihh iho =>
    obtain ⟨depth', rfl⟩ : ∃ n, depth' = n + 1 := ⟨depth' - 1, by omega⟩
    exact .rotated h (ihl (by omega)) (ihh (by omega)) (iho (by omega))

/-- From every store, the part resolves within the depth to a sequence with the property. -/
def Settles (depth : Nat) (part : JoinPart α) (P : Sequence α → Prop) : Prop :=
  ∀ store, ∃ s store', Resolves depth part store s store' ∧ P s

theorem Settles.whole {s : Sequence α} (h : P s) : Settles depth (.whole s) P :=
  fun store => ⟨s, store, .whole depth s store, h⟩

theorem Settles.mono {part : JoinPart α} (h : Settles depth part P) (hd : depth ≤ depth')
    (hPQ : ∀ s, P s → Q s) : Settles depth' part Q := by
  intro store
  obtain ⟨s, store', hs, hp⟩ := h store
  exact ⟨s, store', hs.mono hd, hPQ s hp⟩

theorem Settles.rotated {a b : Sequence α} (h : rotate a b = some (low, high))
    (hl : Settles depth low P) (hh : Settles depth high Q)
    (ho : ∀ l r, P l → Q r → Settles depth (.pair l r) R) :
    Settles (depth + 1) (.pair a b) R := by
  intro store
  obtain ⟨l, store₁, hl, hp⟩ := hl store
  obtain ⟨r, store₂, hr, hq⟩ := hh store₁
  obtain ⟨s, store₃, hs, hR⟩ := ho l r hp hq store₂
  exact ⟨s, store₃, .rotated h hl hr hs, hR⟩

theorem Near.rotate_eq_none {a b : Sequence α} (h : a.Near b) : rotate a b = none := by
  obtain ⟨hl, hr⟩ := h
  rw [rotate, if_neg (by omega), if_neg (by omega)]

theorem Settles.linked {a b : Sequence α} (h : a.Near b) (ha : a.Balanced) (hb : b.Balanced) :
    Settles 1 (.pair a b) fun s => (∃ store, s = linkIn store a b) ∧ s.Balanced ∧
      s.shape = max a.shape b.shape + 1 := by
  intro store
  have hf := Bias.ofShapes_fits h.1 h.2
  exact ⟨_, _, .link 0 store h.rotate_eq_none, ⟨store, rfl⟩, balanced_link.mpr ⟨hf, ha, hb⟩,
    shape_link _ _ hf⟩

/-- A balanced sequence of a shape, or one level higher. -/
def Grown (m : Nat) (s : Sequence α) : Prop :=
  s.Balanced ∧ m ≤ s.shape ∧ s.shape ≤ m + 1

theorem Settles.near {a b : Sequence α} (h : a.Near b) (ha : a.Balanced) (hb : b.Balanced)
    (hd : 0 < depth) (hm : m ≤ max a.shape b.shape + 1) (hm' : max a.shape b.shape ≤ m) :
    Settles depth (.pair a b) (Grown m) := by
  apply (Settles.linked h ha hb).mono hd
  rintro s ⟨-, hs, he⟩
  exact ⟨hs, by omega, by omega⟩

theorem Settles.under_neutral {a y z : Sequence α} (ha : a.Balanced) (hy : y.Balanced)
    (hz : z.Balanced) (hay : y.shape = a.shape + 1) (hyz : z.shape = y.shape) (store : Store) :
    Settles 2 (.pair a (linkIn store y z)) fun s => s.Balanced ∧ s.shape = y.shape + 2 := by
  have hb : Bias.ofShapes y.shape z.shape = .neutral := by
    rw [Bias.ofShapes, Nat.compare_eq_eq.mpr hyz.symm]
  have hs : (linkIn store y z).shape = y.shape + 1 := by
    rw [linkIn, hb, shape]
  have hr : rotate a (linkIn store y z) = some (.pair a y, .whole z) := by
    rw [rotate, if_pos (by omega), linkIn, hb, rotateLeft]
  refine .rotated hr (Settles.linked ⟨by omega, by omega⟩ ha hy) (.whole (P := (· = z)) rfl) ?_
  rintro l _ ⟨-, hl, he⟩ rfl
  apply (Settles.linked ⟨by omega, by omega⟩ hl hz).mono (by omega)
  rintro s ⟨-, hs, he'⟩
  exact ⟨hs, by omega⟩

theorem Settles.over_neutral {x y b : Sequence α} (hx : x.Balanced) (hy : y.Balanced)
    (hb : b.Balanced) (hyb : y.shape = b.shape + 1) (hxy : x.shape = y.shape) (store : Store) :
    Settles 2 (.pair (linkIn store x y) b) fun s => s.Balanced ∧ s.shape = y.shape + 2 := by
  have hn : Bias.ofShapes x.shape y.shape = .neutral := by
    rw [Bias.ofShapes, Nat.compare_eq_eq.mpr hxy]
  have hs : (linkIn store x y).shape = x.shape + 1 := by
    rw [linkIn, hn, shape]
  have hr : rotate (linkIn store x y) b = some (.whole x, .pair y b) := by
    rw [rotate, if_neg (by omega), if_pos (by omega), linkIn, hn, rotateRight]
  refine .rotated hr (.whole (P := (· = x)) rfl) (Settles.linked ⟨by omega, by omega⟩ hy hb) ?_
  rintro _ r rfl ⟨-, hr, he⟩
  apply (Settles.linked ⟨by omega, by omega⟩ hx hr).mono (by omega)
  rintro s ⟨-, hs, he'⟩
  exact ⟨hs, by omega⟩

/-- A heavier second operand is rotated; the joins of smaller shapes are given. -/
theorem Settles.heavy_second {a b : Sequence α} (hb : b.Balanced) (h : a.shape + 1 < b.shape)
    (ih : ∀ c : Sequence α, c.Balanced → c.shape < b.shape →
      Settles depth (.pair a c) (Grown (max a.shape c.shape)))
    (hd : 1 < depth) : Settles (depth + 1) (.pair a b) (Grown (max a.shape b.shape)) := by
  cases b with
  | nil | run | flat | indexed | window | reversed => simp [shape] at h
  | link cell left right bias count =>
    obtain ⟨hf, hl, hr⟩ := balanced_link.mp hb
    have hs := shape_link cell count hf
    cases bias with
    | neutral | right =>
      simp only [Bias.Fits] at hf
      refine .rotated (by rw [rotate, if_pos h, rotateLeft]) (ih left hl (by omega))
        (.whole (P := (· = right)) rfl) ?_
      rintro l _ ⟨hl', hlo, hhi⟩ rfl
      exact .near ⟨by omega, by omega⟩ hl' hr (by omega) (by omega) (by omega)
    | left =>
      cases left with
      | nil | run | flat | indexed | window | reversed => simp [Bias.Fits, shape] at hf
      | link innerCell x y innerBias innerCount =>
        obtain ⟨hi, hx, hy⟩ := balanced_link.mp hl
        have hxy := shape_link innerCell innerCount hi
        obtain ⟨hn, hn'⟩ := near_of_fits hi
        simp only [Bias.Fits] at hf
        refine .rotated (by rw [rotate, if_pos h, rotateLeft]) (ih x hx (by omega))
          ((Settles.linked ⟨by omega, by omega⟩ hy hr).mono (by omega) fun _ hs => hs) ?_
        rintro l _ ⟨hl', hlo, hhi⟩ ⟨⟨store, rfl⟩, hr', he⟩
        by_cases hlr : l.shape + 1 < (linkIn store y right).shape
        -- Only a left part that was as low as the first operand stays two levels below.
        · apply (Settles.under_neutral hl' hy hr (by omega) (by omega) store).mono hd
          rintro s ⟨hs, hsh⟩
          exact ⟨hs, by omega, by omega⟩
        · exact .near ⟨by omega, by omega⟩ hl' hr' (by omega) (by omega) (by omega)

theorem Settles.heavy_first {a b : Sequence α} (ha : a.Balanced) (h : b.shape + 1 < a.shape)
    (ih : ∀ c : Sequence α, c.Balanced → c.shape < a.shape →
      Settles depth (.pair c b) (Grown (max c.shape b.shape)))
    (hd : 1 < depth) : Settles (depth + 1) (.pair a b) (Grown (max a.shape b.shape)) := by
  cases a with
  | nil | run | flat | indexed | window | reversed => simp [shape] at h
  | link cell left right bias count =>
    obtain ⟨hf, hl, hr⟩ := balanced_link.mp ha
    have hs := shape_link cell count hf
    cases bias with
    | neutral | left =>
      simp only [Bias.Fits] at hf
      refine .rotated (by rw [rotate, if_neg (by omega), if_pos h, rotateRight])
        (.whole (P := (· = left)) rfl) (ih right hr (by omega)) ?_
      rintro _ r rfl ⟨hr', hlo, hhi⟩
      exact .near ⟨by omega, by omega⟩ hl hr' (by omega) (by omega) (by omega)
    | right =>
      cases right with
      | nil | run | flat | indexed | window | reversed => simp [Bias.Fits, shape] at hf
      | link innerCell x y innerBias innerCount =>
        obtain ⟨hi, hx, hy⟩ := balanced_link.mp hr
        have hxy := shape_link innerCell innerCount hi
        obtain ⟨hn, hn'⟩ := near_of_fits hi
        simp only [Bias.Fits] at hf
        refine .rotated (by rw [rotate, if_neg (by omega), if_pos h, rotateRight])
          ((Settles.linked ⟨by omega, by omega⟩ hl hx).mono (by omega) fun _ hs => hs)
          (ih y hy (by omega)) ?_
        rintro _ r ⟨⟨store, rfl⟩, hl', he⟩ ⟨hr', hlo, hhi⟩
        by_cases hlr : r.shape + 1 < (linkIn store left x).shape
        · apply (Settles.over_neutral hl hx hr' (by omega) (by omega) store).mono hd
          rintro s ⟨hs, hsh⟩
          exact ⟨hs, by omega, by omega⟩
        · exact .near ⟨by omega, by omega⟩ hl' hr' (by omega) (by omega) (by omega)

/-- The join of balanced sequences ends, within as many nested joins as their shapes tell. -/
theorem Settles.join {a b : Sequence α} (ha : a.Balanced) (hb : b.Balanced)
    (hd : a.shape + b.shape < depth) : Settles depth (.pair a b) (Grown (max a.shape b.shape)) := by
  induction depth generalizing a b with
  | zero => omega
  | succ depth ih =>
    by_cases hab : a.shape + 1 < b.shape
    · exact .heavy_second hb hab (fun c hc hcb => ih ha hc (by omega)) (by omega)
    · by_cases hba : b.shape + 1 < a.shape
      · exact .heavy_first ha hba (fun c hc hca => ih hc hb (by omega)) (by omega)
      · exact .near ⟨by omega, by omega⟩ ha hb (by omega) (by omega) (by omega)

theorem Balanced.join_resolves {a b : Sequence α} (ha : a.Balanced) (hb : b.Balanced)
    (store : Store) : ∃ s store', Resolves (joinFuel a b) (.pair a b) store s store' ∧
      Grown (max a.shape b.shape) s ∧ (join a b).run store = (s, store') := by
  obtain ⟨s, store', hs, hg⟩ := Settles.join ha hb (Nat.lt_succ_self _) store
  refine ⟨s, store', hs, hg, ?_⟩
  have hr : (joinWithin (joinFuel a b) a b).run.run store = (some s, store') :=
    hs.run (Nat.le_refl _)
  simp only [Sequence.join, StateT.run_bind, hr]
  rfl

def JoinPart.All (P : Sequence α → Prop) : JoinPart α → Prop
  | .whole s => P s
  | .pair a b => P a ∧ P b

theorem JoinPart.All.mono {part : JoinPart α} (h : part.All P) (hPQ : ∀ s, P s → Q s) :
    part.All Q := by
  cases part with
  | whole s => exact hPQ s h
  | pair a b => exact ⟨hPQ a h.1, hPQ b h.2⟩

/-- Properties that the children of a link have with it. -/
def Hereditary (P : Sequence α → Prop) : Prop :=
  ∀ {cell : Cell} {left right : Sequence α} {bias : Bias} {count : Nat},
    P (.link cell left right bias count) → P left ∧ P right

/-- Properties of balanced sequences that a link of nearly equal shapes shares with its children. -/
structure Shared (P : Sequence α → Prop) : Prop where
  balanced {s : Sequence α} : P s → s.Balanced
  children : Hereditary P
  link {a b : Sequence α} (store : Store) : P a → P b → a.Near b → P (linkIn store a b)

theorem shared_balanced : Shared (Balanced (α := α)) where
  balanced h := h
  children h := (balanced_link.mp h).2
  link _ ha hb h := balanced_link.mpr ⟨Bias.ofShapes_fits h.1 h.2, ha, hb⟩

theorem rotateLeft_all (hP : Hereditary P) {a b : Sequence α} (ha : P a) (hb : P b)
    (h : rotateLeft a b = some (low, high)) : low.All P ∧ high.All P := by
  unfold rotateLeft at h
  split at h
  · obtain ⟨hl, hr⟩ := hP hb
    obtain ⟨hx, hy⟩ := hP hl
    cases h
    exact ⟨⟨ha, hx⟩, hy, hr⟩
  · obtain ⟨hl, hr⟩ := hP hb
    cases h
    exact ⟨⟨ha, hl⟩, hr⟩
  · obtain ⟨hl, hr⟩ := hP hb
    cases h
    exact ⟨⟨ha, hl⟩, hr⟩
  · cases h

theorem rotateRight_all (hP : Hereditary P) {a b : Sequence α} (ha : P a) (hb : P b)
    (h : rotateRight b a = some (low, high)) : low.All P ∧ high.All P := by
  unfold rotateRight at h
  split at h
  · obtain ⟨hl, hr⟩ := hP ha
    obtain ⟨hx, hy⟩ := hP hr
    cases h
    exact ⟨⟨hl, hx⟩, hy, hb⟩
  · obtain ⟨hl, hr⟩ := hP ha
    cases h
    exact ⟨hl, hr, hb⟩
  · obtain ⟨hl, hr⟩ := hP ha
    cases h
    exact ⟨hl, hr, hb⟩
  · cases h

theorem rotate_all (hP : Hereditary P) {a b : Sequence α} (ha : P a) (hb : P b)
    (h : rotate a b = some (low, high)) : low.All P ∧ high.All P := by
  unfold rotate at h
  split at h
  · exact rotateLeft_all hP ha hb h
  · split at h
    · exact rotateRight_all hP ha hb h
    · cases h

theorem Balanced.rotateLeft_ne_none {a b : Sequence α} (hb : b.Balanced)
    (h : a.shape + 1 < b.shape) : rotateLeft a b ≠ none := by
  cases b with
  | nil | run | flat | indexed | window | reversed => simp [shape] at h
  | link cell left right bias count =>
    cases bias with
    | neutral | right => simp [rotateLeft]
    | left =>
      cases left with
      | nil | run | flat | indexed | window | reversed => simp [Bias.Fits, shape] at hb
      | link => simp [rotateLeft]

theorem Balanced.rotateRight_ne_none {a b : Sequence α} (ha : a.Balanced)
    (h : b.shape + 1 < a.shape) : rotateRight b a ≠ none := by
  cases a with
  | nil | run | flat | indexed | window | reversed => simp [shape] at h
  | link cell left right bias count =>
    cases bias with
    | neutral | left => simp [rotateRight]
    | right =>
      cases right with
      | nil | run | flat | indexed | window | reversed => simp [Bias.Fits, shape] at ha
      | link => simp [rotateRight]

/-- Balanced sequences are linked as they are only where their shapes are nearly equal. -/
theorem Balanced.rotate_eq_none_iff {a b : Sequence α} (ha : a.Balanced) (hb : b.Balanced) :
    rotate a b = none ↔ a.Near b := by
  refine ⟨?_, Near.rotate_eq_none⟩
  intro h
  unfold rotate at h
  split at h
  · exact absurd h (hb.rotateLeft_ne_none ‹_›)
  · split at h
    · exact absurd h (ha.rotateRight_ne_none ‹_›)
    · exact ⟨by omega, by omega⟩

theorem Resolves.all (hP : Shared P) {part : JoinPart α}
    (h : Resolves depth part store s store') (hp : part.All P) : P s := by
  induction h with
  | whole => exact hp
  | link depth store h =>
    obtain ⟨ha, hb⟩ := hp
    exact hP.link store ha hb (((hP.balanced ha).rotate_eq_none_iff (hP.balanced hb)).mp h)
  | rotated h _ _ _ ihl ihh iho =>
    obtain ⟨hl, hh⟩ := rotate_all hP.children hp.1 hp.2 h
    exact iho ⟨ihl hl, ihh hh⟩

theorem Shared.join (hP : Shared P) {a b : Sequence α} (ha : P a) (hb : P b) :
    Yields (join a b) P := by
  intro store
  obtain ⟨s, store', hs, -, hr⟩ := (hP.balanced ha).join_resolves (hP.balanced hb) store
  rw [hr]
  exact hs.all hP ⟨ha, hb⟩

/-- From a store, resolving the part calls the join of two sequences. -/
inductive Calls : JoinPart α → Store → Sequence α → Sequence α → Prop where
  | self (store : Store) : Calls (.pair a b) store a b
  | low (h : rotate a b = some (low, high)) (hc : Calls low store c d) :
      Calls (.pair a b) store c d
  | high (h : rotate a b = some (low, high)) (hl : Resolves depth low store l store₁)
      (hc : Calls high store₁ c d) : Calls (.pair a b) store c d
  | outer (h : rotate a b = some (low, high)) (hl : Resolves depth low store l store₁)
      (hh : Resolves depth high store₁ r store₂) (hc : Calls (.pair l r) store₂ c d) :
      Calls (.pair a b) store c d

theorem Calls.all (hP : Shared P) {part : JoinPart α} (h : Calls part store c d)
    (hp : part.All P) : P c ∧ P d := by
  induction h with
  | self => exact hp
  | low h _ ih => exact ih (rotate_all hP.children hp.1 hp.2 h).1
  | high h _ _ ih => exact ih (rotate_all hP.children hp.1 hp.2 h).2
  | outer h hl hh _ ih =>
    obtain ⟨hlow, hhigh⟩ := rotate_all hP.children hp.1 hp.2 h
    exact ih ⟨hl.all hP hlow, hh.all hP hhigh⟩

end Sequence

end SharedSequence
