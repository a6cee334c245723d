import SharedSequence.Proofs.MapCommands
import SharedSequence.Session.KindStep

namespace SharedSequence

open Sequence Session

namespace ElementKind

variable {K : ElementKind} {w : Worlds K} {s t u v : Sequence K.Element}

theorem builds_equals {owners : Owners K.Element} (hs : s.Sound (some K.hash) owners)
    (ht : t.Sound (some K.hash) owners) (hvs : ∀ x ∈ s.toList, K.Valid x)
    (hvt : ∀ x ∈ t.toList, K.Valid x) :
    Builds (some K.hash) owners (s.equals t) fun _ r =>
      (r = true ↔ List.Forall₂ K.Alike s.toList t.toList) := by
  refine (hs.equals (Option.mem_some_self K.hash) ht).mono ?_
  rintro later r - rfl
  rw [Bool.or_eq_true, Bool.and_eq_true, beq_iff_alike hvs hvt]
  constructor
  · rintro (hi | ⟨-, hall⟩)
    · rw [hs.owned.eq_of_cell ht.owned (eq_of_beq hi)]
      exact alike_refl hvt
    · exact hall
  · intro hall
    exact .inr ⟨beq_iff_eq.mpr (hashOf_eq_of_alike hall), hall⟩

theorem Same.equals (h : K.Same w s t) (h' : K.Same w u v) :
    Agree w (allocating (s.equals u)) (allocating (t.equals v)) fun _ => Eq := by
  refine .allocating
    (builds_equals h.left h'.left (valid_left h.alike) (valid_left h'.alike))
    (builds_equals h.right h'.right (valid_right h.alike) (valid_right h'.alike)) ?_
  intro w' r r' _ hr hr'
  rw [Bool.eq_iff_iff, hr, hr']
  constructor
  · intro hall
    exact alike_trans (alike_symm h.alike) (alike_trans hall h'.alike)
  · intro hall
    exact alike_trans h.alike (alike_trans hall (alike_symm h'.alike))

theorem builds_equalsEmpty {owners : Owners K.Element} (hs : s.Sound (some K.hash) owners)
    (hvs : ∀ x ∈ s.toList, K.Valid x) :
    Builds (some K.hash) owners s.equalsEmpty fun _ r => (r = true ↔ s.toList = []) := by
  change Builds _ _ (do s.equals (← empty)) _
  refine .bind makes_empty ?_
  rintro later t he ⟨ht, hte⟩
  refine (builds_equals (hs.extend he) ht hvs (by rw [hte]; nofun)).mono ?_
  intro _ r _ hr
  rw [hr, hte, List.forall₂_nil_right_iff]

theorem Same.equalsEmpty (h : K.Same w s t) :
    Agree w (allocating s.equalsEmpty) (allocating t.equalsEmpty) fun _ => Eq := by
  refine .allocating (builds_equalsEmpty h.left (valid_left h.alike))
    (builds_equalsEmpty h.right (valid_right h.alike)) ?_
  intro w' r r' _ hr hr'
  rw [Bool.eq_iff_iff, hr, hr', ← List.length_eq_zero_iff, h.alike.length_eq,
    List.length_eq_zero_iff]

theorem Same.hashCode (h : K.Same w s t) :
    Agree w (allocating s.hashCode) (allocating t.hashCode) fun _ => Eq := by
  refine .allocating (h.left.hashCode (Option.mem_some_self K.hash))
    (h.right.hashCode (Option.mem_some_self K.hash)) ?_
  rintro w' _ _ - rfl rfl
  exact hashOf_eq_of_alike h.alike

theorem Same.asks {β : Type} {ask : Sequence K.Element → StoreM β} {f : β → Answer K.Element}
    (a : String) (h : ∀ w s t, K.Same w s t →
      Agree w (allocating (ask s)) (allocating (ask t)) fun _ => Eq) :
    Agree w (do return f (← allocating (ask (← Session.readSequence a))))
      (do return f (← allocating (ask (← Session.readSequence a)))) K.Shows := by
  refine .bind (.readSequence a) ?_
  intro w₁ s t _ hs
  refine .bind (h w₁ s t hs) ?_
  rintro w₂ r _ - rfl
  exact .pure rfl

theorem builds_ofEntries {owners : Owners K.Element} (entries : List (K.Element × K.Element))
    (hk : ∀ x ∈ entries.map Prod.fst, K.Valid x) (hv : ∀ x ∈ entries.map Prod.snd, K.Valid x) :
    Builds (some K.hash) owners (SequenceMap.ofEntries entries) fun later m =>
      (m.keys.Sound (some K.hash) later ∧
        List.Forall₂ K.Alike (entries.map Prod.fst) m.keys.toList) ∧
      (m.values.Sound (some K.hash) later ∧
        List.Forall₂ K.Alike (entries.map Prod.snd) m.values.toList) := by
  unfold SequenceMap.ofEntries
  rw [List.unzip_eq_map]
  refine .bind (makes_ofList _) ?_
  rintro w₁ keys - ⟨hkeys, hke⟩
  refine .bind (Built.compact hkeys (by rw [hke]; exact hk) true) ?_
  rintro w₂ keys' h₂ ⟨hkeys', hka⟩
  refine .bind (makes_ofList _) ?_
  rintro w₃ values h₃ ⟨hvalues, hve⟩
  refine .bind (Built.compactFlat hvalues (by rw [hve]; exact hv)) ?_
  rintro w₄ values' h₄ ⟨hvalues', hva⟩
  rw [hke] at hka
  rw [hve] at hva
  exact .pure ⟨⟨hkeys'.extend (h₃.trans h₄), hka⟩, hvalues', hva⟩

theorem agree_hashed (c : HashedCommand K.Element) (hc : c.AsksValues)
    (hv : ∀ x ∈ c.literals, K.Valid x) : Agree w c.run c.run K.Shows := by
  cases c with
  | compact a withIndex target =>
    refine .bind (.readSequence a) ?_
    intro w₁ s t _ hs
    refine .bind (hs.compact withIndex) ?_
    intro w₂ s' t' _ hs'
    exact agree_keep target hs'
  | hashCode a =>
    exact Same.asks (f := fun word : UInt32 => .count word.toNat) a fun w s t h => h.hashCode
  | equals a b =>
    refine .bind (.readSequence a) ?_
    intro w₁ s t _ hs
    refine .bind (.readSequence b) ?_
    intro w₂ u v hw hu
    refine .bind ((hs.mono hw).equals hu) ?_
    rintro w₃ r _ - rfl
    exact .pure rfl
  | equalsEmpty a => exact Same.asks a fun w s t h => h.equalsEmpty
  | compare a b =>
    refine .bind (.readSequence a) ?_
    intro w₁ s t _ hs
    refine .bind (.readSequence b) ?_
    intro w₂ u v _ hu
    refine .pure ?_
    have hp := hs.elements.partialCompare_eq hu.elements
    simp only [Shows, Answer.seen, isLess, isAtLeast, hs.elements.lexCompare_eq hu.elements, hp]
  | compareWith a b order =>
    refine .bind (.readSequence a) ?_
    intro w₁ s t _ hs
    refine .bind (.readSequence b) ?_
    intro w₂ u v _ hu
    have ho := hs.elements.compareWith_eq (elementOrder_eq order) hu.elements
    exact .pure (congrArg Answer.order ho)
  | debug a =>
    refine .bind (.readSequence a) ?_
    intro w₁ s t _ hs
    have hline := hs.elements.debugText_eq .line
    have hblock := hs.elements.debugText_eq (.block 0)
    have hlist : debugText .line s.asList = debugText .line t.asList := hline
    rw [hline, hblock, hlist]
    exact .pure rfl
  | toJson a =>
    refine .bind (.readSequence a) ?_
    intro w₁ s t _ hs
    rw [hs.elements.toJson_eq]
    exact .pure rfl
  | mapOfEntries entries target =>
    have hk := fun x hx => hv x (List.mem_append_left _ hx)
    have hval := fun x hx => hv x (List.mem_append_right _ hx)
    refine .bind (Q := K.SameMap) (.allocating (builds_ofEntries entries hk hval)
      (builds_ofEntries entries hk hval) ?_) ?_
    · rintro w₁ m n - ⟨⟨hmk, hmka⟩, hmv, hmva⟩ ⟨⟨hnk, hnka⟩, hnv, hnva⟩
      exact ⟨⟨hmk, hnk, alike_trans (alike_symm hmka) hnka⟩,
        ⟨hmv, hnv, alike_trans (alike_symm hmva) hnva⟩⟩
    · intro w₂ m n _ hm
      exact agree_keepMap target hm
  | mapDebug map =>
    refine .bind (.readMap map) ?_
    intro w₁ m n _ hm
    exact .pure (congrArg Answer.text hm.entries.debugLine_eq)
  | compactTraced | hashIndex | bucket | sameIndex | ofJson => exact hc.elim

theorem eq_of_alike_plain {α : Type} [BEq α] [LawfulBEq α] [ElementHash α] [Ord α] [DebugText α]
    [JsonElement α] {xs ys : List α} (h : List.Forall₂ (plain α).Alike xs ys) : xs = ys := by
  have hv := values_eq h
  rwa [List.map_id, List.map_id] at hv

abbrev chars : ElementKind :=
  plain Char

abbrev bytes : ElementKind :=
  plain UInt8

theorem agree_keep_literal {K : ElementKind} {w : Worlds K}
    {make : Except SequenceError (StoreM (Sequence K.Element))} (target : String)
    (h : ∀ m, make = .ok m → ∃ items : List K.Element, (∀ x ∈ items, K.Valid x) ∧
      m = ofList items) :
    Agree w (do keep target (← building make)) (do keep target (← building make)) K.Shows := by
  have hmake : Agree w (building make) (building make) K.Same := by
    refine .building ?_
    cases make with
    | error e => exact rfl
    | ok m =>
      obtain ⟨items, hv, rfl⟩ := h m rfl
      exact agree_literal (fun _ => makes_ofList items) hv
  refine .bind hmake ?_
  intro w₁ s t _ hs
  exact agree_keep target hs

theorem agree_text_ask {w : Worlds chars} {f : CodePoints → Answer Char} (a : String)
    (h : ∀ s t, s.WellFormed (some chars.hash) → t.WellFormed (some chars.hash) →
      s.toList = t.toList → f s = f t) :
    Agree w (do return f (← Session.readSequence a)) (do return f (← Session.readSequence a))
      chars.Shows := by
  refine agree_ask (K := chars) a fun s t hs => ?_
  rw [h s t hs.left hs.right (eq_of_alike_plain hs.alike)]

theorem agree_text {w : Worlds chars} (c : TextCommand) : Agree w c.run c.run chars.Shows := by
  cases c with
  | ofText text target =>
    refine .bind (agree_literal (K := chars) (fun _ => makes_ofList text.toList)
      fun _ _ => trivial) ?_
    intro w₁ s t _ hs
    exact agree_keep target hs
  | ofCodePoints codePoints target =>
    refine agree_keep_literal (K := chars) target fun m hm => ?_
    unfold CodePoints.ofCodePoints at hm
    split at hm
    · cases hm
      exact ⟨_, fun _ _ => trivial, rfl⟩
    · cases hm
  | ofUtf16 units target =>
    refine agree_keep_literal (K := chars) target fun m hm => ?_
    unfold CodePoints.ofUtf16 at hm
    split at hm
    · cases hm
      exact ⟨_, fun _ _ => trivial, rfl⟩
    · cases hm
  | ofUtf8 bytes target =>
    refine agree_keep_literal (K := chars) target fun m hm => ?_
    unfold CodePoints.ofUtf8 at hm
    split at hm
    · cases hm
      exact ⟨_, fun _ _ => trivial, rfl⟩
    · cases hm
  | toText a =>
    refine agree_text_ask a fun s t hs ht he => ?_
    rw [CodePoints.toText_eq hs, CodePoints.toText_eq ht, he]
  | toUtf8 a =>
    refine agree_text_ask a fun s t hs ht he => ?_
    rw [CodePoints.toUtf8, CodePoints.toUtf8, CodePoints.toText_eq hs, CodePoints.toText_eq ht, he]
  | toUtf16 a =>
    refine agree_text_ask a fun s t hs ht he => ?_
    rw [CodePoints.toUtf16, CodePoints.toUtf16, hs.extract_eq, ht.extract_eq, he]
  | toCodePoints a =>
    refine agree_text_ask a fun s t hs ht he => ?_
    rw [CodePoints.toCodePoints, CodePoints.toCodePoints, hs.pending_cursor.rest_eq,
      ht.pending_cursor.rest_eq, he]
  | display a room =>
    let shown (s : CodePoints) : Answer Char :=
      .written (CodePoints.display s room).1 (CodePoints.display s room).2
    refine agree_text_ask (f := shown) a fun s t hs ht he => ?_
    simp only [shown, CodePoints.display, hs.extract_eq, ht.extract_eq, he]

theorem toHex_eq {s t : Bytes} (hs : s.WellFormed (some bytes.hash))
    (ht : t.WellFormed (some bytes.hash)) (h : s.toList = t.toList) (header : Bool) :
    s.toHex header = t.toHex header := by
  rw [Bytes.toHex, Bytes.toHex, hs.fold_eq, ht.fold_eq, h]

theorem toInteger_eq {s t : Bytes} (hs : s.WellFormed (some bytes.hash))
    (ht : t.WellFormed (some bytes.hash)) (h : s.toList = t.toList) (endian : Endian) :
    s.toInteger endian = t.toInteger endian := by
  unfold Bytes.toInteger
  rw [← hs.length_toList, ← ht.length_toList, hs.fold_eq, ht.fold_eq, hs.foldBack_eq,
    ht.foldBack_eq, h]

theorem agree_bytes {w : Worlds bytes} (c : ByteCommand) : Agree w c.run c.run bytes.Shows := by
  cases c with
  | ofHex text header target =>
    refine agree_keep_literal (K := bytes) target fun m hm => ?_
    unfold Bytes.ofHex at hm
    split at hm
    · cases hm
      exact ⟨_, fun _ _ => trivial, rfl⟩
    · cases hm
  | toHex a header =>
    refine agree_ask (K := bytes) a fun s t h => ?_
    rw [toHex_eq h.left h.right (eq_of_alike_plain h.alike)]
  | toText a =>
    refine agree_ask (K := bytes) a fun s t h => ?_
    rw [Bytes.toText, Bytes.toText, toHex_eq h.left h.right (eq_of_alike_plain h.alike)]
  | ofInteger value length endian target =>
    refine agree_keep_literal (K := bytes) target fun m hm => ?_
    unfold Bytes.ofInteger at hm
    split at hm
    · cases hm
    · split at hm
      · cases hm
        exact ⟨_, fun _ _ => trivial, rfl⟩
      · cases hm
        exact ⟨_, fun _ _ => trivial, rfl⟩
  | toInteger a endian =>
    refine agree_inquire (K := bytes) (g := fun word : UInt64 => .count word.toNat) a
      fun s t h => ?_
    rw [toInteger_eq h.left h.right (eq_of_alike_plain h.alike)]
    apply Outcome.refl
    intro word
    rfl
  | display a room =>
    let shown (s : Bytes) : Answer UInt8 :=
      .written (Bytes.display s room).1 (Bytes.display s room).2
    refine agree_ask (K := bytes) (f := shown) a fun s t h => ?_
    have htext : Bytes.toText s = Bytes.toText t :=
      toHex_eq h.left h.right (eq_of_alike_plain h.alike) true
    simp only [shown, Bytes.display, htext]

def nestedLiterals : NestedCommand K.Element → List K.Element
  | .toMap _ key => key.toList

def seenContents (K : ElementKind) (contents : MapContents K.Element) : MapContents K.Value :=
  { keys := contents.keys.map K.value, values := contents.values.map K.value,
    found := contents.found.map K.value }

section

variable {owners : Owners K.Element} {wordHash : UInt32 → UInt64}
  {g h : Sequence (HashedSequence K.Element)}

theorem toMapBy_same (hs : (K.nested wordHash owners).SameElements g h) :
    Outcome K.SameEntries (g.toMapBy HashedSequence.sequence)
      (h.toMapBy HashedSequence.sequence) := by
  rw [toMapBy_eq HashedSequence.sequence hs.left, toMapBy_eq HashedSequence.sequence hs.right]
  have hp := hs.alike
  revert hp
  generalize g.toList = ps, h.toList = qs
  rintro (- | ⟨hk, - | ⟨hv, - | -⟩⟩)
  · exact rfl
  · exact rfl
  · have hkeys := hk.1.sameElements hk.2.1 hk.2.2
    have hvalues := hv.1.sameElements hv.2.1 hv.2.2
    refine (hkeys.pair hvalues).mono ?_
    rintro m n ⟨⟨hmk, hmv⟩, hnk, hnv⟩
    rw [← hmk, ← hnk] at hkeys
    rw [← hmv, ← hnv] at hvalues
    exact ⟨hkeys, hvalues⟩
  · exact rfl

theorem option_rel_refl {key : Option K.Element} (hv : ∀ x ∈ key.toList, K.Valid x) :
    Option.Rel K.Alike key key := by
  cases key with
  | none => exact .none
  | some x => exact .some (alike_self (hv x (List.mem_singleton_self x)))

theorem SameEntries.bind_get? {m n : SequenceMap K.Element K.Element} (hs : K.SameEntries m n)
    {a b : Option K.Element} (hab : Option.Rel K.Alike a b) :
    Option.Rel K.Alike (a.bind m.get?) (b.bind n.get?) := by
  cases hab with
  | some hx => exact hs.get? hx
  | none => exact .none

theorem agree_nested {w : Worlds (K.nested wordHash owners)} (c : NestedCommand K.Element)
    (hv : ∀ x ∈ nestedLiterals c, K.Valid x) :
    Agree w c.run c.run fun _ x y => K.seenContents x = K.seenContents y := by
  obtain ⟨a, key⟩ := c
  refine .bind (.readSequence a) ?_
  intro w₁ g h _ hs
  refine .bind (Q := fun _ => K.SameEntries) (.checked (toMapBy_same hs.elements)) ?_
  intro w₂ m n _ hm
  have hfound := hm.bind_get? (option_rel_refl hv)
  refine .pure ?_
  simp only [seenContents, values_eq hm.keys.toArray, values_eq hm.values.toArray,
    option_value_eq hfound]

end

end ElementKind

end SharedSequence
