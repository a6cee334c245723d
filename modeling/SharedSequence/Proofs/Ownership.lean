import SharedSequence.Proofs.Compaction
import SharedSequence.Proofs.Leaves

namespace SharedSequence

variable {α β γ : Type}

/-- The nodes that own the cells of a store, in the order of the cells. A cell without an owner
belongs to a sequence of other elements. -/
abbrev Owners (α : Type) := List (Option (Sequence α))

def hashOf (hash : ElementHash α) (items : List α) : UInt32 :=
  RollingHash.ofHashes (items.map hash.hash32)

/-- Every cell of the store has its place among the owners, and memos are hashes of their owners. -/
structure Coherent (hashing : Option (ElementHash α)) (owners : Owners α) (store : Store) :
    Prop where
  size : owners.length = store.memo.size
  memo {hash : ElementHash α} {cell : Cell} {node : Sequence α} {word : UInt32} :
    hash ∈ hashing → owners[cell]? = some (some node) → store.peek cell = some word →
      word = hashOf hash node.toList

/-- Every node of the tree owns its cell. -/
def Sequence.Owned (owners : Owners α) (s : Sequence α) : Prop :=
  s.Everywhere fun node => owners[node.cell]? = some (some node)

/-- From every coherent store with these owners, the computation leaves one with these and further
owners, and they and the result are related. -/
def Builds (hashing : Option (ElementHash α)) (owners : Owners α) (computation : StoreM β)
    (Q : Owners α → β → Prop) : Prop :=
  ∀ store, Coherent hashing owners store → ∃ later, owners <+: later ∧
    Coherent hashing later (computation.run store).2 ∧ Q later (computation.run store).1

variable {hashing : Option (ElementHash α)} {owners later : Owners α} {s : Sequence α}
  {computation : StoreM β} {next : β → StoreM γ} {P Q : Owners α → β → Prop}
  {R : Owners α → γ → Prop}

theorem getElem?_of_prefix {items rest : List β} (h : items <+: rest) {i : Nat} {x : β}
    (hi : items[i]? = some x) : rest[i]? = some x := by
  obtain ⟨tail, rfl⟩ := h
  have hl : i < items.length := (List.getElem?_eq_some_iff.mp hi).1
  rw [List.getElem?_append_left hl, hi]

theorem Sequence.Owned.extend (h : s.Owned owners) (he : owners <+: later) : s.Owned later :=
  Everywhere.mono h fun _ hn => getElem?_of_prefix he hn

theorem Sequence.Owned.children {cell : Cell} {left right : Sequence α} {bias : Bias} {count : Nat}
    (h : (link cell left right bias count).Owned owners) : left.Owned owners ∧ right.Owned owners :=
  (everywhere_link.mp h).2

/-- Owners of one cell are the same. -/
theorem Sequence.Owned.eq_of_cell {t : Sequence α} (hs : s.Owned owners) (ht : t.Owned owners)
    (hc : s.cell = t.cell) : s = t := by
  have hown := hs.root
  rw [hc, ht.root] at hown
  exact (Option.some.inj (Option.some.inj hown)).symm

theorem Builds.pure {b : β} (h : Q owners b) : Builds hashing owners (Pure.pure b) Q :=
  fun _ hc => ⟨owners, List.prefix_rfl, hc, h⟩

theorem Builds.mono (h : Builds hashing owners computation P)
    (hPQ : ∀ later b, owners <+: later → P later b → Q later b) :
    Builds hashing owners computation Q := by
  intro store hc
  obtain ⟨later, he, hc', hp⟩ := h store hc
  exact ⟨later, he, hc', hPQ later _ he hp⟩

theorem Builds.bind (h : Builds hashing owners computation P)
    (hn : ∀ later b, owners <+: later → P later b → Builds hashing later (next b) R) :
    Builds hashing owners (computation >>= next) R := by
  intro store hc
  obtain ⟨mid, he, hc', hp⟩ := h store hc
  obtain ⟨last, he', hc'', hr⟩ := hn mid _ he hp _ hc'
  exact ⟨last, he.trans he', hc'', hr⟩

theorem Builds.and_yields {P : β → Prop} (h : Builds hashing owners computation Q)
    (hy : Yields computation P) :
    Builds hashing owners computation fun later b => Q later b ∧ P b := by
  intro store hc
  obtain ⟨later, he, hc', hq⟩ := h store hc
  exact ⟨later, he, hc', hq, hy store⟩

theorem Store.peek_extend (store : Store) (cell : Cell) :
    store.extend.peek cell = store.peek cell := by
  unfold peek extend
  rcases Nat.lt_trichotomy cell store.memo.size with h | h | h
  · rw [Array.getElem?_push_lt h, Array.getElem?_eq_getElem h]
  · rw [h, Array.getElem?_push_size, Array.getElem?_eq_none (Nat.le_refl _)]
    rfl
  · rw [Array.getElem?_eq_none (by rw [Array.size_push]; exact h),
      Array.getElem?_eq_none (Nat.le_of_lt h)]

theorem Coherent.empty : Coherent hashing ([] : Owners α) {} where
  size := rfl
  memo _ hn _ := by cases hn

theorem Coherent.extend {store : Store} (h : Coherent hashing owners store)
    (owner : Option (Sequence α)) : Coherent hashing (owners ++ [owner]) store.extend where
  size := by simp [h.size, Store.extend]
  memo {hash cell node word} hh hn hp := by
    rw [Store.peek_extend] at hp
    rcases Nat.lt_or_ge cell owners.length with hl | hl
    · rw [List.getElem?_append_left hl] at hn
      exact h.memo hh hn hp
    · rw [Store.peek, Array.getElem?_eq_none (by rw [← h.size]; exact hl)] at hp
      cases hp

theorem Coherent.record {store : Store} {cell : Cell} {node : Sequence α} {word : UInt32}
    (h : Coherent hashing owners store) (hn : owners[cell]? = some (some node))
    (hw : ∀ hash ∈ hashing, word = hashOf hash node.toList) :
    Coherent hashing owners (store.record cell word) where
  size := by simp [h.size, Store.record]
  memo {hash cell' node' word'} hh hn' hp := by
    by_cases hc : cell = cell'
    · subst hc
      obtain rfl : node = node' := Option.some.inj (Option.some.inj (hn.symm.trans hn'))
      have hl : cell < store.memo.size := by
        rw [← h.size]
        exact (List.getElem?_eq_some_iff.mp hn).1
      rw [Store.peek, Store.record, Array.getElem?_setIfInBounds_self_of_lt hl] at hp
      dsimp only at hp
      split at hp
      · cases hp
      · rw [← Option.some.inj hp, hw hash hh]
    · apply h.memo hh hn'
      rw [← hp, Store.peek, Store.peek, Store.record, Array.getElem?_setIfInBounds_ne hc]

theorem Builds.node {node : Cell → Sequence α} {Q : Owners α → Sequence α → Prop}
    (hc : ∀ cell, (node cell).cell = cell)
    (hn : ∀ later cell, owners <+: later →
      later[(node cell).cell]? = some (some (node cell)) → Q later (node cell)) :
    Builds hashing owners (do return node (← allocate)) Q := by
  intro store h
  have he : owners <+: owners ++ [some (node store.memo.size)] := List.prefix_append _ _
  refine ⟨_, he, h.extend (some (node store.memo.size)), hn _ store.memo.size he ?_⟩
  rw [hc, ← h.size, List.getElem?_concat_length]

/-- A new node with the elements of another one takes over its memo. -/
theorem Builds.seeded (node : Cell → Sequence α) {f : Cell → β} (hs : s.Owned owners)
    (hc : ∀ cell, (node cell).cell = cell) (ht : ∀ cell, (node cell).toList = s.toList)
    (hn : ∀ later cell, owners <+: later →
      later[(node cell).cell]? = some (some (node cell)) → Q later (f cell)) :
    Builds hashing owners
      (do let cell ← allocate; seed cell (← recallHash s.cell); return f cell) Q := by
  intro store h
  have he : owners <+: owners ++ [some (node store.memo.size)] := List.prefix_append _ _
  have hlast : (owners ++ [some (node store.memo.size)])[store.memo.size]? =
      some (some (node store.memo.size)) := by
    rw [← h.size, List.getElem?_concat_length]
  have hext := h.extend (some (node store.memo.size))
  refine ⟨_, he, ?_, hn _ store.memo.size he (by rw [hc]; exact hlast)⟩
  change Coherent _ _ ((seed store.memo.size (store.extend.peek s.cell)).run store.extend).2
  cases hp : store.extend.peek s.cell with
  | none => exact hext
  | some word =>
    apply hext.record hlast
    intro hash hh
    rw [ht]
    exact hext.memo hh (hs.extend he).root hp

namespace Sequence

theorem Resolves.owned {part : JoinPart α} (h : Resolves depth part store s store')
    (hc : Coherent hashing owners store) (hp : part.All (Owned owners)) :
    ∃ later, owners <+: later ∧ Coherent hashing later store' ∧ s.Owned later := by
  induction h generalizing owners with
  | whole => exact ⟨owners, List.prefix_rfl, hc, hp⟩
  | @link a b depth store h =>
    have he : owners <+: owners ++ [some (linkIn store a b)] := List.prefix_append _ _
    refine ⟨_, he, hc.extend (some (linkIn store a b)), everywhere_link.mpr ⟨?_, ?_, ?_⟩⟩
    · exact (congrArg _ hc.size.symm).trans List.getElem?_concat_length
    · exact hp.1.extend he
    · exact hp.2.extend he
  | rotated h _ _ _ ihl ihh iho =>
    obtain ⟨hl, hh⟩ := rotate_all Owned.children hp.1 hp.2 h
    obtain ⟨later, he, hc, hl⟩ := ihl hc hl
    obtain ⟨later', he', hc, hr⟩ := ihh hc (hh.mono fun _ ho => ho.extend he)
    obtain ⟨last, he'', hc, hs⟩ := iho hc ⟨hl.extend he', hr⟩
    exact ⟨last, (he.trans he').trans he'', hc, hs⟩

theorem Owned.join {a b : Sequence α} (ha : a.Owned owners) (hb : b.Owned owners)
    (hab : a.Balanced) (hbb : b.Balanced) :
    Builds hashing owners (join a b) fun later s => s.Owned later := by
  intro store hc
  obtain ⟨s, store', hs, -, hr⟩ := hab.join_resolves hbb store
  rw [hr]
  exact hs.owned hc ⟨ha, hb⟩

theorem Owned.concat {a b : Sequence α} (ha : a.Owned owners) (hb : b.Owned owners)
    (hab : a.Balanced) (hbb : b.Balanced) :
    Builds hashing owners (a.concat b) fun later s => s.Owned later := by
  unfold Sequence.concat
  split
  · exact .pure ha
  · split
    · exact .pure hb
    · exact ha.join hb hab hbb

theorem Owned.reverse (h : s.Owned owners) :
    Builds hashing owners s.reverse fun later t => t.Owned later := by
  unfold Sequence.reverse
  split
  · exact .pure h
  · cases s with
    | reversed cell base => exact .pure (everywhere_reversed.mp h).2
    | run => exact .pure h
    | nil | flat | indexed | window | link =>
      refine .node (fun _ => rfl) ?_
      intro later cell he ho
      exact everywhere_reversed.mpr ⟨ho, h.extend he⟩

end Sequence

end SharedSequence
