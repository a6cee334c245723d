import Mathlib.Order.Monotone.Basic
import SharedSequence.Proofs.Encodings

namespace SharedSequence

open Sequence

namespace Utf8

/-- A byte that carries six bits of a number after the first byte. -/
def IsTail (byte : UInt8) : Prop :=
  0x80 ≤ byte.toNat ∧ byte.toNat < 0xC0

/-- Bytes with the number that their free bits give. The first byte tells how many tails follow. -/
inductive Spells : List UInt8 → Nat → Prop where
  | one {a : UInt8} (ha : a.toNat < 0x80) : Spells [a] a.toNat
  | two {a b : UInt8} (ha : 0xC0 ≤ a.toNat ∧ a.toNat < 0xE0) (hb : IsTail b) :
      Spells [a, b] ((a.toNat - 0xC0) * 0x40 + (b.toNat - 0x80))
  | three {a b c : UInt8} (ha : 0xE0 ≤ a.toNat ∧ a.toNat < 0xF0) (hb : IsTail b) (hc : IsTail c) :
      Spells [a, b, c]
        (((a.toNat - 0xE0) * 0x40 + (b.toNat - 0x80)) * 0x40 + (c.toNat - 0x80))
  | four {a b c d : UInt8} (ha : 0xF0 ≤ a.toNat ∧ a.toNat < 0xF8) (hb : IsTail b) (hc : IsTail c)
      (hd : IsTail d) : Spells [a, b, c, d]
        ((((a.toNat - 0xF0) * 0x40 + (b.toNat - 0x80)) * 0x40 + (c.toNat - 0x80)) * 0x40 +
          (d.toNat - 0x80))

/-- The shortest bytes for the number of a character; surrogates and numbers above the last
character have none. -/
structure IsForm (form : List UInt8) (n : Nat) : Prop where
  spells : Spells form n
  shortest (other : List UInt8) : Spells other n → form.length ≤ other.length
  character : n.isValidChar

/-- Forms of characters one after another, with nothing before, between or after them. -/
inductive WellFormed : List UInt8 → Prop where
  | nil : WellFormed []
  | append {form rest : List UInt8} {n : Nat} (h : IsForm form n) (hr : WellFormed rest) :
      WellFormed (form ++ rest)

/-- The least number that needs more bytes. -/
def limit : Nat → Nat
  | 0 => 0
  | 1 => 0x80
  | 2 => 0x800
  | 3 => 0x10000
  | _ => 0x200000

variable {form other bytes rest : List UInt8} {n : Nat} {c : Char} {text : List Char}

theorem limit_mono : Monotone limit :=
  monotone_nat_of_le_succ fun
    | 0 | 1 | 2 | 3 => by decide
    | _ + 4 => Nat.le_refl _

theorem Spells.lt_limit (h : Spells form n) : n < limit form.length := by
  cases h with
  | one ha => exact ha
  | two ha hb =>
    obtain ⟨hb₁, hb₂⟩ := hb
    change _ < 0x800
    omega
  | three ha hb hc =>
    obtain ⟨hb₁, hb₂⟩ := hb
    obtain ⟨hc₁, hc₂⟩ := hc
    change _ < 0x10000
    omega
  | four ha hb hc hd =>
    obtain ⟨hb₁, hb₂⟩ := hb
    obtain ⟨hc₁, hc₂⟩ := hc
    obtain ⟨hd₁, hd₂⟩ := hd
    change _ < 0x200000
    omega

theorem IsTail.unique {b b' : UInt8} {m m' : Nat} (hb : IsTail b) (hb' : IsTail b')
    (h : m * 0x40 + (b.toNat - 0x80) = m' * 0x40 + (b'.toNat - 0x80)) : m = m' ∧ b = b' := by
  obtain ⟨hb₁, hb₂⟩ := hb
  obtain ⟨hb₁', hb₂'⟩ := hb'
  exact ⟨by omega, UInt8.toNat_inj.mp (by omega)⟩

theorem Spells.unique (h : Spells form n) (h' : Spells other n)
    (hl : form.length = other.length) : form = other := by
  generalize hm : n = m at h'
  cases h with
  | one ha =>
    cases h' with
    | one => rw [UInt8.toNat_inj.mp hm]
    | two | three | four => cases hl
  | @two a b ha hb =>
    cases h' with
    | @two a' b' ha' hb' =>
      obtain ⟨hm₁, rfl⟩ := hb.unique hb' hm
      have haa : a.toNat = a'.toNat := by omega
      rw [UInt8.toNat_inj.mp haa]
    | one | three | four => cases hl
  | @three a b c ha hb hc =>
    cases h' with
    | @three a' b' c' ha' hb' hc' =>
      obtain ⟨hm₂, rfl⟩ := hc.unique hc' hm
      obtain ⟨hm₁, rfl⟩ := hb.unique hb' hm₂
      have haa : a.toNat = a'.toNat := by omega
      rw [UInt8.toNat_inj.mp haa]
    | one | two | four => cases hl
  | @four a b c d ha hb hc hd =>
    cases h' with
    | @four a' b' c' d' ha' hb' hc' hd' =>
      obtain ⟨hm₃, rfl⟩ := hd.unique hd' hm
      obtain ⟨hm₂, rfl⟩ := hc.unique hc' hm₃
      obtain ⟨hm₁, rfl⟩ := hb.unique hb' hm₂
      have haa : a.toNat = a'.toNat := by omega
      rw [UInt8.toNat_inj.mp haa]
    | one | two | three => cases hl

theorem toNat_tail (n : Nat) : (tail n).toNat = 0x80 + n % 0x40 :=
  UInt8.toNat_ofNat_of_lt (by change _ < 256; omega)

theorem isTail_tail (n : Nat) : IsTail (tail n) := by
  rw [IsTail, toNat_tail]
  omega

theorem spells_encodeChar (c : Char) : Spells (encodeChar c) c.toNat := by
  have hc := isValidChar_toNat c
  have hofNat {k : Nat} (hk : k < 0x100) : (UInt8.ofNat k).toNat = k :=
    UInt8.toNat_ofNat_of_lt hk
  unfold encodeChar
  dsimp only
  split
  · have ha : (UInt8.ofNat c.toNat).toNat = c.toNat := hofNat (by omega)
    have hs : Spells [UInt8.ofNat c.toNat] _ := .one (by omega)
    rwa [ha] at hs
  · split
    · have ha : (UInt8.ofNat (0xC0 + c.toNat / 0x40)).toNat = 0xC0 + c.toNat / 0x40 :=
        hofNat (by omega)
      have hs := Spells.two (by rw [ha]; omega) (isTail_tail c.toNat)
      have hn : (0xC0 + c.toNat / 0x40 - 0xC0) * 0x40 + (0x80 + c.toNat % 0x40 - 0x80) =
          c.toNat := by omega
      rwa [ha, toNat_tail, hn] at hs
    · split
      · have ha : (UInt8.ofNat (0xE0 + c.toNat / 0x1000)).toNat = 0xE0 + c.toNat / 0x1000 :=
          hofNat (by omega)
        have hs := Spells.three (by rw [ha]; omega) (isTail_tail (c.toNat / 0x40))
          (isTail_tail c.toNat)
        have hn : ((0xE0 + c.toNat / 0x1000 - 0xE0) * 0x40 +
            (0x80 + c.toNat / 0x40 % 0x40 - 0x80)) * 0x40 + (0x80 + c.toNat % 0x40 - 0x80) =
              c.toNat := by omega
        rwa [ha, toNat_tail, toNat_tail, hn] at hs
      · have ha : (UInt8.ofNat (0xF0 + c.toNat / 0x40000)).toNat = 0xF0 + c.toNat / 0x40000 :=
          hofNat (by omega)
        have hs := Spells.four (by rw [ha]; omega) (isTail_tail (c.toNat / 0x1000))
          (isTail_tail (c.toNat / 0x40)) (isTail_tail c.toNat)
        have hn : (((0xF0 + c.toNat / 0x40000 - 0xF0) * 0x40 +
            (0x80 + c.toNat / 0x1000 % 0x40 - 0x80)) * 0x40 +
            (0x80 + c.toNat / 0x40 % 0x40 - 0x80)) * 0x40 + (0x80 + c.toNat % 0x40 - 0x80) =
              c.toNat := by omega
        rwa [ha, toNat_tail, toNat_tail, toNat_tail, hn] at hs

theorem limit_length_encodeChar_le (c : Char) :
    limit ((encodeChar c).length - 1) ≤ c.toNat := by
  unfold encodeChar
  dsimp only
  split
  · exact Nat.zero_le _
  · split
    · exact Nat.le_of_not_lt ‹_›
    · split
      · exact Nat.le_of_not_lt ‹_›
      · exact Nat.le_of_not_lt ‹_›

/-- A number that is not below the limit of fewer bytes has no shorter form. -/
theorem Spells.isForm (h : Spells form n) (hl : limit (form.length - 1) ≤ n)
    (hc : n.isValidChar) : IsForm form n where
  spells := h
  shortest other ho := by
    apply Nat.le_of_not_lt
    intro hlt
    have hle : limit other.length ≤ limit (form.length - 1) := limit_mono (by omega)
    have hn := ho.lt_limit
    omega
  character := hc

theorem isForm_encodeChar (c : Char) : IsForm (encodeChar c) c.toNat :=
  (spells_encodeChar c).isForm (limit_length_encodeChar_le c) (isValidChar_toNat c)

theorem IsForm.encodeChar_eq (h : IsForm form n) : encodeChar (Char.ofNat n) = form := by
  have hf := isForm_encodeChar (Char.ofNat n)
  rw [toNat_ofNat_of_isValidChar h.character] at hf
  exact hf.spells.unique h.spells
    (Nat.le_antisymm (hf.shortest form h.spells) (h.shortest _ hf.spells))

theorem IsForm.limit_le (h : IsForm form n) : limit (form.length - 1) ≤ n := by
  have hl := limit_length_encodeChar_le (Char.ofNat n)
  rwa [h.encodeChar_eq, toNat_ofNat_of_isValidChar h.character] at hl

theorem encodeChar_of_ascii (hc : c.toNat < 0x80) : encodeChar c = [UInt8.ofNat c.toNat] := by
  rw [encodeChar, if_pos hc]

theorem Spells.exists_high (h : Spells form n) (hn : 0x80 ≤ n) :
    ∃ byte ∈ form, 0x80 ≤ byte.toNat := by
  cases h with
  | one ha => omega
  | two ha | three ha | four ha => exact ⟨_, .head _, by omega⟩

theorem length_encodeChar (c : Char) : (encodeChar c).length = c.utf8Size := by
  have hle (n : Nat) (hn : n < 2 ^ 32) : c.val ≤ UInt32.ofNatLT n hn ↔ c.toNat < n + 1 :=
    Nat.lt_succ_iff.symm
  simp only [encodeChar, Char.utf8Size, hle]
  split
  · rfl
  · split
    · rfl
    · split <;> rfl

theorem length_encode (text : List Char) :
    (encode text).length = (String.ofList text).utf8ByteSize := by
  induction text with
  | nil => rfl
  | cons c text ih =>
    rw [encode, List.flatMap_cons, List.length_append, ← encode, ih, length_encodeChar,
      String.ofList_cons, String.utf8ByteSize_append, String.utf8ByteSize_singleton]

theorem encode_append (text more : List Char) :
    encode (text ++ more) = encode text ++ encode more :=
  List.flatMap_append

/-- The first byte of a longer form, and what it announces. It and the range of the next byte rule
out forms that are not the shortest, surrogates, and numbers above the last character. -/
inductive Leads (a : UInt8) : Pending → Prop where
  | two (ha : 0xC2 ≤ a.toNat ∧ a.toNat < 0xE0)
      (hb : ∀ b : UInt8, least ≤ b ∧ b ≤ greatest ↔ IsTail b) :
      Leads a ⟨a.toNat - 0xC0, 1, least, greatest⟩
  | three (ha : 0xE0 ≤ a.toNat ∧ a.toNat < 0xF0)
      (hb : ∀ b : UInt8, least ≤ b ∧ b ≤ greatest ↔ IsTail b ∧
        (a.toNat = 0xE0 → 0xA0 ≤ b.toNat) ∧ (a.toNat = 0xED → b.toNat < 0xA0)) :
      Leads a ⟨a.toNat - 0xE0, 2, least, greatest⟩
  | four (ha : 0xF0 ≤ a.toNat ∧ a.toNat < 0xF5)
      (hb : ∀ b : UInt8, least ≤ b ∧ b ≤ greatest ↔ IsTail b ∧
        (a.toNat = 0xF0 → 0x90 ≤ b.toNat) ∧ (a.toNat = 0xF4 → b.toNat < 0x90)) :
      Leads a ⟨a.toNat - 0xF0, 3, least, greatest⟩

theorem within_tail_iff {b : UInt8} : (0x80 : UInt8) ≤ b ∧ b ≤ 0xBF ↔ IsTail b :=
  Iff.and Iff.rfl Nat.lt_succ_iff.symm

section

variable {a least greatest : UInt8}

theorem within_iff {b : UInt8} :
    least ≤ b ∧ b ≤ greatest ↔ least.toNat ≤ b.toNat ∧ b.toNat ≤ greatest.toNat :=
  Iff.rfl

theorem leads_three (ha : 0xE0 ≤ a.toNat ∧ a.toNat < 0xF0)
    (hl : least.toNat = if a.toNat = 0xE0 then 0xA0 else 0x80)
    (hg : greatest.toNat = if a.toNat = 0xED then 0x9F else 0xBF) :
    Leads a ⟨a.toNat - 0xE0, 2, least, greatest⟩ := by
  apply Leads.three ha
  intro b
  rw [within_iff, hl, hg, IsTail]
  split <;> split <;> omega

theorem leads_four (ha : 0xF0 ≤ a.toNat ∧ a.toNat < 0xF5)
    (hl : least.toNat = if a.toNat = 0xF0 then 0x90 else 0x80)
    (hg : greatest.toNat = if a.toNat = 0xF4 then 0x8F else 0xBF) :
    Leads a ⟨a.toNat - 0xF0, 3, least, greatest⟩ := by
  apply Leads.four ha
  intro b
  rw [within_iff, hl, hg, IsTail]
  split <;> split <;> omega

theorem leads_of_ofLead? {pending : Pending} (h : Pending.ofLead? a = some pending) :
    Leads a pending := by
  unfold Pending.ofLead? at h
  simp only [UInt8.lt_iff_toNat_lt, UInt8.le_iff_toNat_le, ← UInt8.toNat_inj,
    UInt8.reduceToNat] at h
  split at h
  · cases h
  split at h
  · obtain rfl := Option.some.inj h
    exact .two (by omega) fun b => within_tail_iff
  split at h
  · obtain rfl := Option.some.inj h
    have hr : Leads a ⟨a.toNat - 0xE0, 2, 0xA0, 0xBF⟩ :=
      leads_three (by omega) (if_pos ‹_›).symm (if_neg (by omega)).symm
    rwa [‹a.toNat = 0xE0›] at hr
  split at h
  · obtain rfl := Option.some.inj h
    have hr : Leads a ⟨a.toNat - 0xE0, 2, 0x80, 0x9F⟩ :=
      leads_three (by omega) (if_neg ‹_›).symm (if_pos ‹_›).symm
    rwa [‹a.toNat = 0xED›] at hr
  split at h
  · obtain rfl := Option.some.inj h
    exact leads_three (by omega) (if_neg ‹_›).symm (if_neg ‹_›).symm
  split at h
  · obtain rfl := Option.some.inj h
    have hr : Leads a ⟨a.toNat - 0xF0, 3, 0x90, 0xBF⟩ :=
      leads_four (by omega) (if_pos ‹_›).symm (if_neg (by omega)).symm
    rwa [‹a.toNat = 0xF0›] at hr
  split at h
  · obtain rfl := Option.some.inj h
    exact leads_four (by omega) (if_neg ‹_›).symm (if_neg (by omega)).symm
  split at h
  · obtain rfl := Option.some.inj h
    have hr : Leads a ⟨a.toNat - 0xF0, 3, 0x80, 0x8F⟩ :=
      leads_four (by omega) (if_neg ‹_›).symm (if_pos ‹_›).symm
    rwa [‹a.toNat = 0xF4›] at hr
  · cases h

end

theorem exists_ofLead? {a : UInt8} (h : 0xC2 ≤ a.toNat ∧ a.toNat < 0xF5) :
    ∃ pending, Pending.ofLead? a = some pending := by
  unfold Pending.ofLead?
  simp only [UInt8.lt_iff_toNat_lt, UInt8.le_iff_toNat_le, ← UInt8.toNat_inj, UInt8.reduceToNat]
  rw [if_neg (by omega)]
  repeat' split
  all_goals first | exact ⟨_, rfl⟩ | omega

section

variable {a b least greatest : UInt8} {bits owed : Nat} {pending : Pending}

theorem decode_lead (ha : 0x80 ≤ a.toNat) (hp : Pending.ofLead? a = some pending)
    (bytes : List UInt8) : decode (a :: bytes) = decodeFrom (some pending) bytes := by
  have ha' : ¬a < 0x80 := Nat.not_lt_of_le ha
  rw [decode, decodeFrom, if_neg ha', hp]

theorem decodeFrom_last (hb : least ≤ b ∧ b ≤ greatest) (rest : List UInt8) :
    decodeFrom (some ⟨bits, 1, least, greatest⟩) (b :: rest) =
      (decode rest).map (Char.ofNat (bits * 0x40 + (b.toNat - 0x80)) :: ·) := by
  rw [decodeFrom, if_pos hb]
  rfl

theorem decodeFrom_more (hb : least ≤ b ∧ b ≤ greatest) (rest : List UInt8) :
    decodeFrom (some ⟨bits, owed + 2, least, greatest⟩) (b :: rest) =
      decodeFrom (some ⟨bits * 0x40 + (b.toNat - 0x80), owed + 1, 0x80, 0xBF⟩) rest := by
  rw [decodeFrom, if_pos hb]
  rfl

end

theorem IsForm.decode_append (h : IsForm form n) (rest : List UInt8) :
    decode (form ++ rest) = (decode rest).map (Char.ofNat n :: ·) := by
  have hl := h.limit_le
  have hn := h.character
  cases h.spells with
  | @one a ha =>
    have ha' : a < 0x80 := ha
    rw [decode, List.singleton_append, decodeFrom, if_pos ha', decode]
  | @two a b ha hb =>
    have ⟨hb₁, hb₂⟩ := hb
    -- A number that needs two bytes has a first byte that announces a form.
    change 0x80 ≤ _ at hl
    obtain ⟨pending, hp⟩ := exists_ofLead? (a := a) (by omega)
    cases leads_of_ofLead? hp with
    | two _ hr => exact (decode_lead (by omega) hp _).trans (decodeFrom_last ((hr b).mpr hb) rest)
    | three | four => omega
  | @three a b c ha hb hc =>
    have ⟨hb₁, hb₂⟩ := hb
    have ⟨hc₁, hc₂⟩ := hc
    change 0x800 ≤ _ at hl
    obtain ⟨pending, hp⟩ := exists_ofLead? (a := a) (by omega)
    cases leads_of_ofLead? hp with
    | three _ hr =>
      have hb' := (hr b).mpr ⟨hb, by omega, by omega⟩
      exact (decode_lead (by omega) hp _).trans <|
        (decodeFrom_more hb' _).trans (decodeFrom_last (within_tail_iff.mpr hc) rest)
    | two | four => omega
  | @four a b c d ha hb hc hd =>
    have ⟨hb₁, hb₂⟩ := hb
    have ⟨hc₁, hc₂⟩ := hc
    have ⟨hd₁, hd₂⟩ := hd
    change 0x10000 ≤ _ at hl
    obtain ⟨pending, hp⟩ := exists_ofLead? (a := a) (by omega)
    cases leads_of_ofLead? hp with
    | four _ hr =>
      have hb' := (hr b).mpr ⟨hb, by omega, by omega⟩
      exact (decode_lead (by omega) hp _).trans <| (decodeFrom_more hb' _).trans <|
        (decodeFrom_more (within_tail_iff.mpr hc) _).trans
          (decodeFrom_last (within_tail_iff.mpr hd) rest)
    | two | three => omega

theorem decode_encode (text : List Char) : decode (encode text) = some text := by
  induction text with
  | nil => rfl
  | cons c text ih =>
    rw [encode, List.flatMap_cons, (isForm_encodeChar c).decode_append, ← encode, ih,
      Option.map_some, Char.ofNat_toNat]

/-- Bytes that complete a pending character, and its number. -/
inductive Completes : Pending → List UInt8 → Nat → Prop where
  | last {pending : Pending} {b : UInt8} (ho : pending.owed = 1)
      (hb : pending.least ≤ b ∧ b ≤ pending.greatest) :
      Completes pending [b] (pending.bits * 0x40 + (b.toNat - 0x80))
  | more {pending : Pending} {b : UInt8} {tails : List UInt8} {n : Nat} (ho : pending.owed ≠ 1)
      (hb : pending.least ≤ b ∧ b ≤ pending.greatest)
      (h : Completes ⟨pending.bits * 0x40 + (b.toNat - 0x80), pending.owed - 1, 0x80, 0xBF⟩
        tails n) : Completes pending (b :: tails) n

theorem Completes.of_last {pending : Pending} {tails : List UInt8} (h : Completes pending tails n)
    (ho : pending.owed = 1) : ∃ b, tails = [b] ∧ (pending.least ≤ b ∧ b ≤ pending.greatest) ∧
      n = pending.bits * 0x40 + (b.toNat - 0x80) := by
  cases h with
  | last _ hb => exact ⟨_, rfl, hb, rfl⟩
  | more hm => exact absurd ho hm

theorem Completes.of_more {pending : Pending} {tails : List UInt8} (h : Completes pending tails n)
    (ho : pending.owed ≠ 1) : ∃ b rest, tails = b :: rest ∧
      (pending.least ≤ b ∧ b ≤ pending.greatest) ∧
      Completes ⟨pending.bits * 0x40 + (b.toNat - 0x80), pending.owed - 1, 0x80, 0xBF⟩ rest n := by
  cases h with
  | last hl => exact absurd hl ho
  | more _ hb h => exact ⟨_, _, rfl, hb, h⟩

theorem Completes.isForm {a : UInt8} {pending : Pending} {tails : List UInt8}
    (hp : Pending.ofLead? a = some pending) (h : Completes pending tails n) :
    IsForm (a :: tails) n := by
  cases leads_of_ofLead? hp with
  | two ha hr =>
    obtain ⟨b, rfl, hb, hn⟩ := h.of_last rfl
    have hb' := (hr b).mp hb
    have ⟨hb₁, hb₂⟩ := hb'
    dsimp only at hn
    rw [hn]
    apply (Spells.two (by omega) hb').isForm
    · change 0x80 ≤ _
      omega
    · omega
  | three ha hr =>
    obtain ⟨b, _, rfl, hb, h⟩ := h.of_more (by simp)
    obtain ⟨c, rfl, hc, hn⟩ := h.of_last rfl
    obtain ⟨hb', hl, hg⟩ := (hr b).mp hb
    have ⟨hb₁, hb₂⟩ := hb'
    have hc' := within_tail_iff.mp hc
    have ⟨hc₁, hc₂⟩ := hc'
    dsimp only at hn
    rw [hn]
    apply (Spells.three ha hb' hc').isForm
    · change 0x800 ≤ _
      omega
    · omega
  | four ha hr =>
    obtain ⟨b, _, rfl, hb, h⟩ := h.of_more (by simp)
    obtain ⟨c, _, rfl, hc, h⟩ := h.of_more (by simp)
    obtain ⟨d, rfl, hd, hn⟩ := h.of_last rfl
    obtain ⟨hb', hl, hg⟩ := (hr b).mp hb
    have ⟨hb₁, hb₂⟩ := hb'
    have hc' := within_tail_iff.mp hc
    have ⟨hc₁, hc₂⟩ := hc'
    have hd' := within_tail_iff.mp hd
    have ⟨hd₁, hd₂⟩ := hd'
    dsimp only at hn
    rw [hn]
    apply (Spells.four (by omega) hb' hc' hd').isForm
    · change 0x10000 ≤ _
      omega
    · omega

/-- The bytes seen of a pending character, whose completions are all forms. -/
def Follows (seen : List UInt8) : Option Pending → Prop
  | none => seen = []
  | some pending => ∀ tails n, Completes pending tails n → IsForm (seen ++ tails) n

theorem encode_cons_of_isForm (h : IsForm form n) (text : List Char) :
    encode (Char.ofNat n :: text) = form ++ encode text := by
  rw [encode, List.flatMap_cons, h.encodeChar_eq]
  rfl

theorem encode_of_decodeFrom {state : Option Pending} {seen : List UInt8} (hs : Follows seen state)
    (h : decodeFrom state bytes = some text) : encode text = seen ++ bytes := by
  -- The invariant is `Follows`: the bytes already read are a form as soon as tails complete them.
  fun_induction decodeFrom state bytes generalizing seen text with
  | case1 =>
    cases h
    cases hs
    rfl
  | case3 byte rest hb ih =>
    obtain ⟨text, ht, rfl⟩ := Option.map_eq_some_iff.mp h
    cases hs
    have hf : IsForm [byte] byte.toNat :=
      (Spells.one hb).isForm (Nat.zero_le _) (.inl (Nat.lt_trans hb (by decide)))
    rw [encode_cons_of_isForm hf, ih rfl ht]
    rfl
  | case5 byte rest hb pending hp ih =>
    cases hs
    have hf : Follows [byte] (some pending) := fun tails n hc => hc.isForm hp
    exact ih hf h
  | case6 pending byte rest hb bits ho =>
    rename_i ih
    obtain ⟨text, ht, rfl⟩ := Option.map_eq_some_iff.mp h
    rw [encode_cons_of_isForm (hs _ _ (.last ho hb)), ih rfl ht, List.nil_append, List.append_assoc]
    rfl
  | case7 pending byte rest hb bits ho =>
    rename_i ih
    have hf : Follows (seen ++ [byte]) (some ⟨bits, pending.owed - 1, 0x80, 0xBF⟩) := by
      intro tails n hc
      rw [List.append_assoc]
      exact hs _ n (.more ho hb hc)
    rw [ih hf h, List.append_assoc]
    rfl
  | case2 | case4 | case8 => cases h

theorem encode_of_decode (h : decode bytes = some text) : encode text = bytes := by
  have hs : Follows [] none := rfl
  exact encode_of_decodeFrom hs h

theorem wellFormed_encode (text : List Char) : WellFormed (encode text) := by
  induction text with
  | nil => exact .nil
  | cons c text ih => exact .append (isForm_encodeChar c) ih

theorem exists_decode_iff : (∃ text, decode bytes = some text) ↔ WellFormed bytes := by
  constructor
  · rintro ⟨text, h⟩
    rw [← encode_of_decode h]
    exact wellFormed_encode text
  · intro h
    induction h with
    | nil => exact ⟨[], rfl⟩
    | append hf _ ih =>
      obtain ⟨text, ht⟩ := ih
      exact ⟨_, by rw [hf.decode_append, ht, Option.map_some]⟩

end Utf8

namespace CodePoints

theorem ofUtf8_eq (bytes : List UInt8) :
    ofUtf8 bytes = ofDecoded (Utf8.decode bytes) .malformedUtf8 := by
  rw [ofUtf8]
  cases Utf8.decode bytes <;> rfl

theorem ofUtf8_encode (text : List Char) : ofUtf8 (Utf8.encode text) = .ok (ofList text) := by
  rw [ofUtf8, Utf8.decode_encode]

/-- Bytes are read exactly if they are well-formed, other bytes are refused, and what is read is
written as these bytes. In a run, the bytes of a sequence, and its text, are read as a sequence
equal to it, and what is written for a concatenation is what is written for its operands. -/
theorem utf8_round_trip :
    (∀ bytes : List UInt8,
      ((∃ make, ofUtf8 bytes = .ok make) ↔ Utf8.WellFormed bytes) ∧
        (¬Utf8.WellFormed bytes → ofUtf8 bytes = .error (.invalidArgument .malformedUtf8)) ∧
        ∀ make, ofUtf8 bytes = .ok make → ∀ store, toUtf8 (make.run store).1 = bytes) ∧
      ∀ {store : Store} {made : List CodePoints}, Run (some inferInstance) store made →
        (∀ s ∈ made, (∃ make, ofUtf8 s.toUtf8 = .ok make ∧ MakesEqual make store s) ∧
          MakesEqual (ofText s.toText) store s) ∧
        ∀ a ∈ made, ∀ b ∈ made,
          toUtf8 ((a.concat b).run store).1 = a.toUtf8 ++ b.toUtf8 := by
  constructor
  · intro bytes
    rw [ofUtf8_eq, exists_ofDecoded_iff, ← Utf8.exists_decode_iff]
    refine ⟨Iff.rfl, ofDecoded_eq_error _, ?_⟩
    intro make hm store
    obtain ⟨text, ht, rfl⟩ := ofDecoded_eq_ok hm
    exact (yields_written (fun _ => @toUtf8_eq none _) text store).trans (Utf8.encode_of_decode ht)
  · intro store made h
    constructor
    · intro s hs
      constructor
      · exact ⟨_, by rw [toUtf8_eq (h.wellFormed hs), ofUtf8_encode], h.makesEqual_ofList hs⟩
      · rw [ofText, toText_eq (h.wellFormed hs), String.toList_ofList]
        exact h.makesEqual_ofList hs
    · intro a ha b hb
      exact yields_written_concat (fun _ => toUtf8_eq) (h.wellFormed ha) (h.wellFormed hb) store

/-- Characters of one to four bytes, and three bytes that are not the shortest form. -/
theorem utf8_round_trip_clefs :
    (∃ make, ofUtf8 [0xF0, 0x9D, 0x84, 0x9E, 0xF0, 0x9D, 0x84, 0x9E, 0xE2, 0x82, 0xAC, 0xC3, 0xA9,
        0x61] = .ok make ∧ MakesEqual make ⟨#[0, 0, 0, 0]⟩ clefs) ∧
      ofUtf8 [0xE0, 0x83, 0xA9] = .error (.invalidArgument .malformedUtf8) := by
  obtain ⟨hbytes, hruns⟩ := utf8_round_trip
  obtain ⟨made, hrun⟩ := run_reversedLink 'a' 'é' '€' '𝄞'
  have hlong : ¬Utf8.WellFormed [0xE0, 0x83, 0xA9] := by
    rw [← Utf8.exists_decode_iff]
    exact nofun
  exact ⟨((hruns hrun).1 clefs (.head _)).1, (hbytes _).2.1 hlong⟩

end CodePoints

end SharedSequence
