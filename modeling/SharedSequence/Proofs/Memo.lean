import SharedSequence.Proofs.Comparison
import SharedSequence.Proofs.Search

namespace SharedSequence

open Sequence

variable {α : Type}

/-- The hash of a list of elements, by arithmetic of naturals. -/
def hashValue (hash : ElementHash α) (items : List α) : Nat :=
  let state := items.foldl
    (fun state x => state * 0x01000193 % UInt32.size ^^^ (hash.hash32 x).toNat) 0x811C9DC5
  if state = 0 then 1 else state

theorem toNat_step (state word : UInt32) : (RollingHash.step state word).toNat =
    state.toNat * 0x01000193 % UInt32.size ^^^ word.toNat := by
  rw [RollingHash.step, UInt32.toNat_xor, UInt32.toNat_mul]
  rfl

theorem toNat_foldl_step (hash : ElementHash α) (items : List α) (state : UInt32) :
    ((items.map hash.hash32).foldl RollingHash.step state).toNat =
      items.foldl (fun state x => state * 0x01000193 % UInt32.size ^^^ (hash.hash32 x).toNat)
        state.toNat := by
  induction items generalizing state with
  | nil => rfl
  | cons x items ih => rw [List.map_cons, List.foldl_cons, List.foldl_cons, ih, toNat_step]

theorem toNat_hashOf (hash : ElementHash α) (items : List α) :
    (hashOf hash items).toNat = hashValue hash items := by
  have hf := toNat_foldl_step hash items RollingHash.start
  change _ = items.foldl _ 0x811C9DC5 at hf
  rw [hashOf, RollingHash.ofHashes, RollingHash.finish, hashValue, ← hf]
  by_cases hz : (items.map hash.hash32).foldl RollingHash.step RollingHash.start = 0
  · rw [if_pos hz, hz]
    rfl
  · rw [if_neg hz, if_neg]
    intro h
    exact hz (UInt32.toNat_inj.mp h)

/-- Zero is left to the cells that hold no hash. -/
theorem hashOf_ne_zero (hash : ElementHash α) (items : List α) : hashOf hash items ≠ 0 := by
  rw [hashOf, RollingHash.ofHashes, RollingHash.finish]
  split
  · decide
  · assumption

def Sequence.Matches [BEq α] (a b : Sequence α) : Prop :=
  a.length = b.length ∧
    ∀ i x y, a.get? i = some x → b.get? i = some y → (x == y) = true

theorem list_beq_iff [BEq α] {xs ys : List α} : (xs == ys) = true ↔ xs.length = ys.length ∧
    ∀ (i : Nat) (x y : α), xs[i]? = some x → ys[i]? = some y → (x == y) = true := by
  rw [list_beq_iff_forall₂, List.forall₂_iff_get]
  apply and_congr_right
  intro hl
  constructor
  · intro h i x y hx hy
    obtain ⟨hi, rfl⟩ := List.getElem?_eq_some_iff.mp hx
    obtain ⟨hj, rfl⟩ := List.getElem?_eq_some_iff.mp hy
    exact h i hi hj
  · intro h i hi hj
    exact h i _ _ (List.getElem?_eq_getElem hi) (List.getElem?_eq_getElem hj)

theorem map_hash32_eq_of_beq [BEq α] {hash : ElementHash α} (hh : HashAgrees (some hash))
    {xs ys : List α} (h : (xs == ys) = true) : xs.map hash.hash32 = ys.map hash.hash32 :=
  map_eq_iff_forall₂.mpr ((list_beq_iff_forall₂.mp h).imp (hh hash rfl))

theorem hashOf_eq_of_beq [BEq α] {hash : ElementHash α} (hh : HashAgrees (some hash))
    {xs ys : List α} (h : (xs == ys) = true) : hashOf hash xs = hashOf hash ys := by
  rw [hashOf, hashOf, map_hash32_eq_of_beq hh h]

section

variable [BEq α] {hashing : Option (ElementHash α)} {a b : Sequence α}

theorem Sequence.WellFormed.matches_iff (ha : a.WellFormed hashing) (hb : b.WellFormed hashing) :
    a.Matches b ↔ (a.toList == b.toList) = true := by
  rw [list_beq_iff, Matches, ha.length_toList, hb.length_toList]
  simp only [ha.get?_eq, hb.get?_eq]

end

section

variable [BEq α] {hashing : Option (ElementHash α)}

/-- From a store and the sequences made so far, a run goes on to a later store and the sequences
made by then. -/
inductive Later (hashing : Option (ElementHash α)) (store : Store) (made : List (Sequence α)) :
    Store → List (Sequence α) → Prop where
  | here : Later hashing store made store made
  | make (h : Later hashing store made now held) (hm : Operation hashing held make) :
      Later hashing store made (make.run now).2 ((make.run now).1 :: held)
  | hashCode {hash : ElementHash α} (h : Later hashing store made now held)
      (hh : hash ∈ hashing) (ha : a ∈ held) :
      Later hashing store made (a.hashCode.run now).2 held
  | equals {hash : ElementHash α} (h : Later hashing store made now held) (hh : hash ∈ hashing)
      (ha : a ∈ held) (hb : b ∈ held) : Later hashing store made ((a.equals b).run now).2 held

variable {store now : Store} {made held : List (Sequence α)} {s node : Sequence α}

theorem Later.run (hl : Later hashing store made now held) (h : Run hashing store made) :
    Run hashing now held := by
  induction hl with
  | here => exact h
  | make _ hm ih => exact ih.make hm
  | hashCode _ hh ha ih => exact ih.hashCode hh ha
  | equals _ hh ha hb ih => exact ih.equals hh ha hb

theorem Later.mem (hl : Later hashing store made now held) (hs : s ∈ made) : s ∈ held := by
  induction hl with
  | here => exact hs
  | make _ _ ih => exact .tail _ ih
  | hashCode _ _ _ ih | equals _ _ _ _ ih => exact ih

theorem Run.node_sound (h : Run hashing store made) (hs : s ∈ made) (hn : node ∈ s.nodes) :
    ∃ owners, Coherent hashing owners store ∧ node.Sound hashing owners := by
  obtain ⟨owners, hc, hall⟩ := h.sound
  exact ⟨owners, hc, (hall s hs).wellFormed.of_mem hn, (hall s hs).owned.of_mem hn⟩

omit [BEq α] in
theorem Coherent.memo_word {owners : Owners α} {hash : ElementHash α} {cell : Cell}
    (hc : Coherent hashing owners store) (hh : hash ∈ hashing)
    (hn : owners[cell]? = some (some node)) :
    store.memo[cell]? = some 0 ∨ store.memo[cell]? = some (hashOf hash node.toList) := by
  have hl : cell < store.memo.size := by
    rw [← hc.size]
    exact (List.getElem?_eq_some_iff.mp hn).1
  rw [Array.getElem?_eq_getElem hl]
  by_cases hz : store.memo[cell] = 0
  · exact .inl (congrArg some hz)
  · have hp : store.peek cell = some store.memo[cell] := by
      rw [Store.peek, Array.getElem?_eq_getElem hl]
      exact if_neg hz
    exact .inr (congrArg some (hc.memo hh hn hp))

theorem Run.hashCode_eq {hash : ElementHash α} (h : Run (some hash) store made) (hs : s ∈ made)
    (hn : node ∈ s.nodes) : (node.hashCode.run store).1 = hashOf hash node.toList := by
  obtain ⟨owners, hc, hnode⟩ := h.node_sound hs hn
  obtain ⟨-, -, -, hw⟩ := hnode.hashCode (Option.mem_some_self hash) store hc
  exact hw

/-- In a run the cell of each node holds nothing or the hash of its elements. The answer to a
request for the hash is that hash, now and whenever the run goes on, so it is never zero and never
changes; and nodes whose elements are equal one by one have one hash. -/
theorem Run.memo_is_hash {hash : ElementHash α} (h : Run (some hash) store made) (hs : s ∈ made)
    (hn : node ∈ s.nodes) :
    (∃ word, store.memo[node.cell]? = some word ∧
        (word = 0 ∨ word.toNat = hashValue hash node.toList)) ∧
      (∀ now held, Later (some hash) store made now held →
        (node.hashCode.run now).1.toNat = hashValue hash node.toList ∧
          (node.hashCode.run now).1 ≠ 0 ∧
          (node.hashCode.run now).1 = (node.hashCode.run store).1) ∧
      (HashAgrees (some hash) → ∀ t ∈ made, ∀ other ∈ t.nodes, node.Matches other →
        (node.hashCode.run store).1 = (other.hashCode.run store).1) := by
  refine ⟨?_, ?_, ?_⟩
  · obtain ⟨owners, hc, hnode⟩ := h.node_sound hs hn
    rcases hc.memo_word (Option.mem_some_self hash) hnode.owned.root with hw | hw
    · exact ⟨_, hw, .inl rfl⟩
    · exact ⟨_, hw, .inr (toNat_hashOf hash _)⟩
  · intro now held hl
    rw [(hl.run h).hashCode_eq (hl.mem hs) hn, h.hashCode_eq hs hn]
    exact ⟨toNat_hashOf hash _, hashOf_ne_zero hash _, rfl⟩
  · intro hagree t ht other ho hm
    have hwn : node.WellFormed (some hash) := (Reachable.wellFormed ⟨_, _, h, hs⟩).of_mem hn
    have hwo : other.WellFormed (some hash) := (Reachable.wellFormed ⟨_, _, h, ht⟩).of_mem ho
    rw [h.hashCode_eq hs hn, h.hashCode_eq ht ho]
    exact hashOf_eq_of_beq hagree ((hwn.matches_iff hwo).mp hm)

/-- A leaf whose hash is asked for before it is compacted into a table. -/
def plainLeaf : Sequence Nat :=
  .flat 0 #[5, 8, 5, 7] 0 4

/-- The store after the compaction: the new cell takes the hash over. -/
def seededStore : Store :=
  ⟨#[229589852, 229589852]⟩

theorem run_seeded : Run (some parity) seededStore [table, plainLeaf] := by
  have h₁ : Run (some parity) ⟨#[0]⟩ [plainLeaf] := Run.start.step (.ofArray #[5, 8, 5, 7]) rfl
  have h₂ : Run (some parity) ⟨#[229589852]⟩ [plainLeaf] :=
    h₁.hashCode (Option.mem_some_self parity) (.head _)
  exact h₂.step (.compact (Option.mem_some_self parity) (.head _) true) rfl

/-- The cell that took a hash over, also after a comparison, and the leaf that it came from. -/
theorem memo_is_hash_seeded :
    hashValue parity table.toList = 229589852 ∧
      (∃ word, seededStore.memo[table.cell]? = some word ∧
        (word = 0 ∨ word.toNat = hashValue parity table.toList)) ∧
      ((@hashCode _ parity table).run ((@equals _ _ parity table plainLeaf).run seededStore).2).1 =
        ((@hashCode _ parity table).run seededStore).1 ∧
      ((@hashCode _ parity table).run seededStore).1 =
        ((@hashCode _ parity plainLeaf).run seededStore).1 := by
  have hleaf : plainLeaf ∈ [table, plainLeaf] := .tail _ (.head _)
  have hwt : table.WellFormed (some parity) := Reachable.wellFormed ⟨_, _, run_seeded, .head _⟩
  have hwl : plainLeaf.WellFormed (some parity) := Reachable.wellFormed ⟨_, _, run_seeded, hleaf⟩
  obtain ⟨hw, hl, hm⟩ := run_seeded.memo_is_hash (.head _) table.mem_nodes_self
  obtain ⟨-, -, hlater⟩ := hl _ _ (Later.here.equals (Option.mem_some_self parity) (.head _) hleaf)
  exact ⟨(toNat_hashOf parity _).symm.trans rfl, hw, hlater,
    hm hashAgrees_parity _ hleaf _ plainLeaf.mem_nodes_self ((hwt.matches_iff hwl).mpr rfl)⟩

end

end SharedSequence
