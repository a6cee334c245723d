import SharedSequence.Proofs.Comparison
import SharedSequence.Proofs.Extraction
import SharedSequence.WordHash

namespace SharedSequence

open Sequence

variable {α β γ : Type}

theorem isValidChar_toNat (c : Char) : c.toNat.isValidChar :=
  c.valid

theorem toNat_ofNat_of_isValidChar {n : Nat} (h : n.isValidChar) : (Char.ofNat n).toNat = n := by
  rw [Char.ofNat, dif_pos h]
  rfl

namespace Collector

theorem pushList_utf16Writer (items : List Char) (units : Array UInt16) :
    pushList CodePoints.utf16Writer items units =
      .yield (units ++ (Utf16.encode items).toArray) := by
  induction items generalizing units with
  | nil => simp [pushList, Utf16.encode]
  | cons c items ih =>
    rw [pushList, CodePoints.utf16Writer, andThen, ih, Utf16.encode, Utf16.encode,
      List.flatMap_cons, Array.append_assoc, List.append_toArray (Utf16.encodeChar c)]

end Collector

namespace CodePoints

variable {hashing : Option (ElementHash Char)} {s : CodePoints}

theorem toUtf16_eq (h : s.WellFormed hashing) : s.toUtf16 = Utf16.encode s.toList := by
  rw [toUtf16, h.extract_eq, Collector.pushList_utf16Writer, Collector.state, Array.empty_append]

theorem toUtf8_eq (h : s.WellFormed hashing) : s.toUtf8 = Utf8.encode s.toList := by
  rw [toUtf8, toText_eq h, String.toList_ofList]

end CodePoints

def Hex.header (header : Bool) : List Char :=
  if header then ['0', 'x'] else []

def Hex.encode (header : Bool) (bytes : List UInt8) : String :=
  String.ofList (Hex.header header ++ bytes.flatMap Hex.encodeByte)

theorem Bytes.toHex_eq {hashing : Option (ElementHash UInt8)} {s : Bytes}
    (h : s.WellFormed hashing) (header : Bool) : s.toHex header = Hex.encode header s.toList := by
  have hfold (items : List UInt8) (text : String) :
      items.foldl (fun text byte => text ++ String.ofList (Hex.encodeByte byte)) text =
        text ++ String.ofList (items.flatMap Hex.encodeByte) := by
    induction items generalizing text with
    | nil => simp
    | cons byte items ih => simp [ih, String.append_assoc]
  rw [toHex, h.fold_eq, hfold, Hex.encode, String.ofList_append]
  cases header <;> rfl

/-- A sequence of the items that were decoded, or the one reason for which there are none. -/
def ofDecoded (items? : Option (List α)) (rejection : Rejection) :
    Except SequenceError (StoreM (Sequence α)) :=
  match items? with
  | some items => .ok (ofList items)
  | none => .error (.invalidArgument rejection)

theorem ofDecoded_eq_ok {items? : Option (List α)} {rejection : Rejection}
    {make : StoreM (Sequence α)} (h : ofDecoded items? rejection = .ok make) :
    ∃ items, items? = some items ∧ make = ofList items := by
  cases items? with
  | none => cases h
  | some items =>
    cases h
    exact ⟨items, rfl, rfl⟩

theorem exists_ofDecoded_iff {items? : Option (List α)} {rejection : Rejection} :
    (∃ make, ofDecoded items? rejection = .ok make) ↔ ∃ items, items? = some items := by
  cases items? with
  | none => exact iff_of_false nofun nofun
  | some items => exact iff_of_true ⟨_, rfl⟩ ⟨_, rfl⟩

theorem ofDecoded_eq_error {items? : Option (List α)} (rejection : Rejection)
    (h : ¬∃ items, items? = some items) :
    ofDecoded items? rejection = .error (.invalidArgument rejection) := by
  cases items? with
  | none => rfl
  | some items => exact absurd ⟨items, rfl⟩ h

section

variable [BEq α] {hashing : Option (ElementHash α)} {write : Sequence α → γ} {encode : List α → γ}
  (hwrite : ∀ s, s.WellFormed hashing → write s = encode s.toList)

include hwrite

theorem yields_written (items : List α) :
    Yields (ofList items) fun s => write s = encode items := by
  intro store
  obtain ⟨hw, hl⟩ := yields_of_makes (fun _ => makes_ofList items) store
  rw [hwrite _ hw, hl]

end

section

variable [BEq α] {hashing : Option (ElementHash α)} {write : Sequence α → List β}
  {encode : α → List β} {a b : Sequence α}
  (hwrite : ∀ s, s.WellFormed hashing → write s = s.toList.flatMap encode)

include hwrite

theorem yields_written_concat (ha : a.WellFormed hashing) (hb : b.WellFormed hashing) :
    Yields (a.concat b) fun s => write s = write a ++ write b := by
  intro store
  rw [hwrite _ (ha.concat hb store), ha.toList_concat hb store, List.flatMap_append, hwrite a ha,
    hwrite b hb]

end

section

variable [BEq α] [hash : ElementHash α] {s : Sequence α} {store : Store} {made : List (Sequence α)}

/-- The computation makes a sequence that is equal to another one, by both comparisons. -/
def MakesEqual (make : StoreM (Sequence α)) (store : Store) (s : Sequence α) : Prop :=
  ∃ t later, make.run store = (t, later) ∧ (t == s) = true ∧ ((t.equals s).run later).1 = true

variable [ReflBEq α] (h : Run (some hash) store made) (hs : s ∈ made)

include h hs

theorem Run.makesEqual_ofList : MakesEqual (ofList s.toList) store s := by
  obtain ⟨owners, hc, hsound⟩ := h.sound
  obtain ⟨later, he, hc', ht, htl⟩ := makes_ofList s.toList store hc
  have hs' := (hsound s hs).extend he
  have hh := Option.mem_some_self hash
  obtain ⟨-, -, -, heq⟩ := ht.equals_of_toList_eq hh hs' htl _ hc'
  obtain ⟨-, -, -, hbeq⟩ := ht.equals_eq_beq hs' _ hc'
  exact ⟨_, _, rfl, hbeq.symm.trans heq, heq⟩

end

def reversedLink (a b c d : α) : Sequence α :=
  .reversed 3 (.link 2 (.flat 0 #[a, b, c] 0 3) (.run 1 d 2) .neutral 5)

theorem run_reversedLink [BEq α] [hash : ElementHash α] (a b c d : α) :
    ∃ made, Run (some hash) ⟨#[0, 0, 0, 0]⟩ (reversedLink a b c d :: made) := by
  have h₁ : Run (some hash) ⟨#[0]⟩ [.flat 0 #[a, b, c] 0 3] :=
    Run.start.step (.ofArray #[a, b, c]) rfl
  have h₂ := h₁.step (.replicate 2 d) rfl
  have h₃ := h₂.step (.concat (.tail _ (.head _)) (.head _)) rfl
  exact ⟨_, h₃.step (.reverse (.head _)) rfl⟩

/-- Characters of every length. -/
def clefs : CodePoints :=
  reversedLink 'a' 'é' '€' '𝄞'

end SharedSequence
