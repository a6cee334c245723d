import SharedSequence.Proofs.Ownership

namespace SharedSequence

open Sequence

variable {α : Type} [BEq α] {hashing : Option (ElementHash α)} {owners later : Owners α}
  {s a b : Sequence α} {make : StoreM (Sequence α)} {items : List α}

/-- A well-formed tree whose nodes own their cells. -/
structure Sequence.Sound (hashing : Option (ElementHash α)) (owners : Owners α) (s : Sequence α) :
    Prop where
  wellFormed : s.WellFormed hashing
  owned : s.Owned owners

/-- The computation makes a sound sequence of the elements. -/
def Makes (hashing : Option (ElementHash α)) (owners : Owners α) (make : StoreM (Sequence α))
    (items : List α) : Prop :=
  Builds hashing owners make fun later s => s.Sound hashing later ∧ s.toList = items

theorem Sequence.Sound.extend (h : s.Sound hashing owners) (he : owners <+: later) :
    s.Sound hashing later :=
  ⟨h.wellFormed, h.owned.extend he⟩

theorem Sequence.Sound.extend_all {made : List (Sequence α)}
    (h : ∀ s ∈ made, s.Sound hashing owners) (he : owners <+: later) :
    ∀ s ∈ made, s.Sound hashing later :=
  fun s hs => (h s hs).extend he

/-- Ownership depends on the store, the elements and the form of the tree do not. -/
theorem Makes.of_owned (ho : Builds hashing owners make fun later s => s.Owned later)
    (hw : Yields make (WellFormed hashing)) (he : Yields make fun s => s.toList = items) :
    Makes hashing owners make items := by
  refine (ho.and_yields (hw.and he)).mono ?_
  rintro later s - ⟨ho, hw, he⟩
  exact ⟨⟨hw, ho⟩, he⟩

theorem Sequence.Sound.makes_self (h : s.Sound hashing owners) :
    Makes hashing owners (return s) s.toList :=
  .pure ⟨h, rfl⟩

omit [BEq α] in
/-- What holds of a result in every world of owners holds whatever the store is. -/
theorem yields_of_builds {β : Type} {make : StoreM β} {P : β → Prop}
    (h : ∀ owners, Builds hashing owners make fun _ b => P b) : Yields make P := by
  intro store
  have hc : Coherent hashing (List.replicate store.memo.size none) store := by
    refine ⟨List.length_replicate, ?_⟩
    intro hash cell node word _ hn
    cases List.eq_of_mem_replicate (List.mem_of_getElem? hn)
  obtain ⟨later, -, -, hb⟩ := h _ store hc
  exact hb

theorem yields_of_makes (h : ∀ owners, Makes hashing owners make items) :
    Yields make fun s => s.WellFormed hashing ∧ s.toList = items :=
  yields_of_builds fun owners => (h owners).mono fun _ _ _ hs => ⟨hs.1.wellFormed, hs.2⟩

theorem makes_empty : Makes hashing owners (empty : StoreM (Sequence α)) [] := by
  refine .node (fun _ => rfl) ?_
  intro later cell _ ho
  exact ⟨⟨wellFormed_nil, everywhere_nil.mpr ho⟩, rfl⟩

theorem makes_replicate (count : Nat) (value : α) :
    Makes hashing owners (replicate count value) (List.replicate count value) := by
  unfold Sequence.replicate
  split
  · rename_i h
    rw [h]
    exact makes_empty
  · rename_i h
    refine .node (fun _ => rfl) ?_
    intro later cell _ ho
    exact ⟨⟨wellFormed_run.mpr (Nat.pos_of_ne_zero h), everywhere_run.mpr ho⟩, rfl⟩

theorem makes_ofBuffer (items : Array α) :
    Makes hashing owners (ofBuffer items) items.toList := by
  unfold Sequence.ofBuffer
  split
  · rename_i h
    rw [Array.isEmpty_iff.mp h]
    exact makes_empty
  · rename_i h
    have hs : 0 < items.size := Array.size_pos_iff.mpr fun he => h (Array.isEmpty_iff.mpr he)
    refine .node (fun _ => rfl) ?_
    intro later cell _ ho
    refine ⟨⟨wellFormed_flat.mpr ⟨hs, Nat.le_of_eq (Nat.zero_add _)⟩, everywhere_flat.mpr ho⟩, ?_⟩
    rw [toList, List.drop_zero, ← Array.length_toList, List.take_length]

theorem makes_ofArray (items : Array α) : Makes hashing owners (ofArray items) items.toList := by
  unfold Sequence.ofArray
  split
  · rename_i h
    have he : items.toList = List.replicate 1 items[0] := by
      obtain ⟨x, hx⟩ := Array.size_eq_one_iff.mp h
      subst hx
      rfl
    rw [he]
    exact makes_replicate 1 _
  · exact makes_ofBuffer items

theorem makes_ofList (items : List α) : Makes hashing owners (ofList items) items :=
  makes_ofArray items.toArray

theorem Sequence.Sound.concat (ha : a.Sound hashing owners) (hb : b.Sound hashing owners) :
    Makes hashing owners (a.concat b) (a.toList ++ b.toList) :=
  .of_owned (ha.owned.concat hb.owned ha.wellFormed.balanced hb.wellFormed.balanced)
    (ha.wellFormed.concat hb.wellFormed) (ha.wellFormed.toList_concat hb.wellFormed)

theorem Makes.concat (ha : Makes hashing owners make items) (hb : b.Sound hashing owners) :
    Makes hashing owners (do (← make).concat b) (items ++ b.toList) := by
  refine .bind ha ?_
  rintro later a he ⟨hs, rfl⟩
  exact hs.concat (hb.extend he)

theorem makes_appendAll {parts : List (Sequence α)} (hs : s.Sound hashing owners)
    (h : ∀ part ∈ parts, part.Sound hashing owners) :
    Makes hashing owners (s.appendAll parts) (s.toList ++ parts.flatMap toList) := by
  induction parts generalizing s owners with
  | nil =>
    rw [List.flatMap_nil, List.append_nil]
    exact hs.makes_self
  | cons part parts ih =>
    obtain ⟨hp, hps⟩ := List.forall_mem_cons.mp h
    refine .bind (hs.concat hp) ?_
    rintro later t he ⟨ht, hte⟩
    rw [List.flatMap_cons, ← List.append_assoc, ← hte]
    exact ih ht (Sound.extend_all hps he)

theorem makes_combineAll {parts : List (Sequence α)}
    (h : ∀ part ∈ parts, part.Sound hashing owners) :
    Makes hashing owners (combineAll parts) (parts.flatMap toList) := by
  refine .bind makes_empty ?_
  rintro later s he ⟨hs, hse⟩
  have hall := makes_appendAll hs (Sound.extend_all h he)
  rwa [hse, List.nil_append] at hall

theorem makes_reduceAll {parts : List (Sequence α)}
    (h : ∀ part ∈ parts, part.Sound hashing owners) (hm : reduceAll parts = some make) :
    Makes hashing owners make (parts.flatMap toList) := by
  cases parts with
  | nil => cases hm
  | cons first rest =>
    obtain ⟨hf, hr⟩ := List.forall_mem_cons.mp h
    cases hm
    exact makes_appendAll hf hr

theorem makes_concatAll {parts : List (Sequence α)}
    (h : ∀ part ∈ parts, part.Sound hashing owners) :
    Makes hashing owners (concatAll parts) (parts.flatMap toList) := by
  induction parts using concatAll.induct generalizing owners with
  | case1 =>
    rw [Sequence.concatAll]
    exact makes_empty
  | case2 part =>
    rw [Sequence.concatAll, List.flatMap_singleton]
    exact (h part (List.mem_singleton_self part)).makes_self
  | case3 first second rest ihl ihh =>
    rw [Sequence.concatAll]
    refine .bind (ihl fun part hp => h part (List.mem_of_mem_take hp)) ?_
    rintro mid low he ⟨hl, hle⟩
    refine .bind (ihh fun part hp => (h part (List.mem_of_mem_drop hp)).extend he) ?_
    rintro later high he' ⟨hh, hhe⟩
    have hall := (hl.extend he').concat hh
    rwa [hle, hhe, ← List.flatMap_append, List.take_append_drop] at hall

theorem makes_appendEach (hs : s.Sound hashing owners) (items : List α) :
    Makes hashing owners (s.appendEach items) (s.toList ++ items) := by
  induction items generalizing s owners with
  | nil =>
    rw [List.append_nil]
    exact hs.makes_self
  | cons x items ih =>
    have hx : Makes hashing owners (do s.concat (← replicate 1 x)) (s.toList ++ [x]) := by
      refine .bind (makes_replicate 1 x) ?_
      rintro later t he ⟨ht, hte⟩
      have hst := (hs.extend he).concat ht
      rwa [hte] at hst
    refine .bind hx ?_
    rintro later t he ⟨ht, hte⟩
    have hall := ih ht
    rwa [hte, List.append_assoc] at hall

theorem makes_prependEach (hs : s.Sound hashing owners) (items : List α) :
    Makes hashing owners (s.prependEach items) (items.reverse ++ s.toList) := by
  induction items generalizing s owners with
  | nil => exact hs.makes_self
  | cons x items ih =>
    refine .bind ((makes_replicate 1 x).concat hs) ?_
    rintro later t he ⟨ht, hte⟩
    have hall := ih ht
    rwa [hte, ← List.append_assoc, List.replicate_one, ← List.reverse_cons] at hall

theorem Sequence.Sound.reverse (h : s.Sound hashing owners) :
    Makes hashing owners s.reverse s.toList.reverse :=
  .of_owned h.owned.reverse h.wellFormed.reverse h.wellFormed.toList_reverse

theorem Sequence.Owned.cut {offset length : Nat} (h : s.Owned owners)
    (hs : s.WellFormed hashing) (hw : offset + length ≤ s.length) :
    Builds hashing owners (s.cut offset length) fun later t => t.Owned later := by
  fun_induction Sequence.cut s offset length generalizing owners with
  | case1 s => exact .pure h
  | case2 | case3 =>
    refine .node (fun _ => rfl) ?_
    intro later cell _ ho
    exact everywhere_nil.mpr ho
  | case4 =>
    refine .node (fun _ => rfl) ?_
    intro later cell _ ho
    exact everywhere_run.mpr ho
  | case5 =>
    refine .node (fun _ => rfl) ?_
    intro later cell _ ho
    exact everywhere_flat.mpr ho
  | case6 =>
    refine .node (fun _ => rfl) ?_
    intro later cell he ho
    exact everywhere_window.mpr ⟨ho, h.extend he⟩
  | case7 offset length hl _ base start count _ ih =>
    obtain ⟨⟨-, -, -, hi⟩, hb⟩ := wellFormed_window.mp hs
    simp only [Sequence.length] at hw
    exact ih (everywhere_window.mp h).2 hb (by omega)
  | case8 offset length hl _ base _ ih =>
    obtain ⟨-, hb⟩ := wellFormed_reversed.mp hs
    simp only [Sequence.length] at hw
    refine .bind (ih (everywhere_reversed.mp h).2 hb (by omega)) ?_
    intro later t _ ht
    exact ht.reverse
  | case9 offset length hl _ left right bias count ho _ ih =>
    obtain ⟨⟨-, -, -, hc⟩, -, hwr⟩ := wellFormed_link.mp hs
    simp only [Sequence.length] at hw
    exact ih h.children.2 hwr (by omega)
  | case10 offset length hl _ left right bias count ho he _ ih =>
    exact ih h.children.1 (wellFormed_link.mp hs).2.1 he
  | case11 offset length hl _ left right bias count ho he _ ihl ihr =>
    obtain ⟨⟨-, -, -, hc⟩, hwl, hwr⟩ := wellFormed_link.mp hs
    simp only [Sequence.length] at hw
    have hlow : offset + (left.length - offset) ≤ left.length := by omega
    have hhigh : 0 + (offset + length - left.length) ≤ right.length := by omega
    refine .bind ((ihl h.children.1 hwl hlow).and_yields (hwl.cut hlow)) ?_
    rintro mid low he ⟨hlo, hlw⟩
    refine .bind ((ihr (h.children.2.extend he) hwr hhigh).and_yields (hwr.cut hhigh)) ?_
    rintro later high he' ⟨hho, hhw⟩
    exact (hlo.extend he').concat hho hlw.balanced hhw.balanced

theorem Sequence.Sound.cut {offset length : Nat} (h : s.Sound hashing owners)
    (hw : offset + length ≤ s.length) :
    Makes hashing owners (s.cut offset length) (slots s.toList offset length) :=
  .of_owned (h.owned.cut h.wellFormed hw) (h.wellFormed.cut hw) (h.wellFormed.toList_cut hw)

theorem Sequence.Sound.slice {offset length : Nat} (h : s.Sound hashing owners)
    (hm : s.slice offset length = .ok make) :
    offset + length ≤ s.length ∧ Makes hashing owners make (slots s.toList offset length) := by
  unfold Sequence.slice at hm
  split at hm
  · rename_i hall
    obtain ⟨rfl, rfl⟩ := hall
    cases hm
    refine ⟨Nat.le_of_eq (Nat.zero_add _), ?_⟩
    rw [← h.wellFormed.length_toList, slots_all]
    exact h.makes_self
  · unfold checkWindow at hm
    split at hm
    · rename_i hw
      cases hm
      exact ⟨hw, h.cut hw⟩
    · cases hm

/-- The elements after a compaction are the same, or copies of the common value. -/
def Sequence.Compacts (s t : Sequence α) : Prop :=
  t.toList = s.toList ∨
    ∃ value, s.commonValue? = some value ∧ t.toList = List.replicate s.length value

theorem builds_replicate_common {value : α} (hv : s.commonValue? = some value) :
    Builds hashing owners (do return (⟨← replicate s.length value, []⟩ : Compaction α))
      fun later done => done.result.Sound hashing later ∧ s.Compacts done.result := by
  refine .bind (makes_replicate s.length value) ?_
  rintro later t _ ⟨ht, he⟩
  exact .pure ⟨ht, .inr ⟨value, hv, he⟩⟩

theorem Sequence.Sound.flatten (h : s.Sound hashing owners) :
    Builds hashing owners s.flatten fun later done =>
      done.result.Sound hashing later ∧ s.Compacts done.result := by
  unfold Sequence.flatten
  split
  · exact .pure ⟨h, .inl rfl⟩
  · exact .pure ⟨h, .inl rfl⟩
  · exact .pure ⟨h, .inl rfl⟩
  · rename_i hn _ _
    have hs := h.wellFormed.length_pos hn
    split
    · rename_i hv
      exact builds_replicate_common hv
    · split
      · exact .pure ⟨h, .inl rfl⟩
      · have hl := h.wellFormed.toList_copied
        refine .seeded (fun cell => .flat cell s.toArray 0 s.length) h.owned
          (fun _ => rfl) hl ?_
        intro later cell _ ho
        exact ⟨⟨h.wellFormed.copied hs cell, everywhere_flat.mpr ho⟩, .inl (hl cell)⟩

theorem Sequence.Sound.index {hash : ElementHash α} (hh : hash ∈ hashing)
    (h : s.Sound hashing owners) :
    Builds hashing owners s.index fun later done =>
      done.result.Sound hashing later ∧ s.Compacts done.result := by
  unfold Sequence.index
  split
  · exact .pure ⟨h, .inl rfl⟩
  · exact .pure ⟨h, .inl rfl⟩
  · exact .pure ⟨h, .inl rfl⟩
  · rename_i hn _ _
    have hs := h.wellFormed.length_pos hn
    split
    · rename_i hv
      exact builds_replicate_common hv
    · rename_i hv
      have hi := h.wellFormed.sharedItems_eq
      have hl (cell : Cell) : (indexed cell s.sharedItems (.build s.sharedItems hash.hash32)
          hash.hash32).toList = s.toList := by
        rw [toList, hi]
      refine .seeded (fun cell => .indexed cell s.sharedItems _ _) h.owned
        (fun _ => rfl) hl ?_
      intro later cell _ ho
      refine ⟨⟨wellFormed_indexed.mpr ⟨?_, rfl, hash, hh, rfl⟩, everywhere_indexed.mpr ho⟩,
        .inl (hl cell)⟩
      rw [hi]
      exact h.wellFormed.varied_of_commonValue? hs hv

theorem Sequence.Sound.compactFlat (h : s.Sound hashing owners) :
    Builds hashing owners s.compactFlat fun later t => t.Sound hashing later ∧ s.Compacts t := by
  refine .bind h.flatten ?_
  intro later done _ hd
  exact .pure hd

theorem Sequence.Sound.compact {hash : ElementHash α} (hh : hash ∈ hashing)
    (h : s.Sound hashing owners) (withIndex : Bool) :
    Builds hashing owners (s.compact withIndex) fun later t =>
      t.Sound hashing later ∧ s.Compacts t := by
  cases withIndex with
  | false => exact h.compactFlat
  | true =>
    refine .bind (h.index hh) ?_
    intro later done _ hd
    exact .pure hd

end SharedSequence
