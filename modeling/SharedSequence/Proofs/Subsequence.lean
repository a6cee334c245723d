import Mathlib.Order.Bounds.Basic
import SharedSequence.Proofs.GuardedSearch

namespace SharedSequence

namespace Sequence

variable {α : Type} [BEq α] {hashing : Option (ElementHash α)} {s needle : Sequence α}
  {head value : α} {lastStart start offset p : Nat} {found found' : Option Nat}

/-- The needle lies inside the sequence at a position, and the elements there equal its own. -/
def StandsAt (s needle : Sequence α) (p : Nat) : Prop :=
  p + needle.length ≤ s.length ∧
    ∀ i < needle.length, ∃ x y, s.get? (p + i) = some x ∧ needle.get? i = some y ∧ (x == y) = true

/-- The result is the least position from an offset on at which the needle stands. -/
def LeftmostFrom (s needle : Sequence α) (offset : Nat) : Option Nat → Prop
  | some p => IsLeast {q | offset ≤ q ∧ s.StandsAt needle q} p
  | none => ∀ q, offset ≤ q → ¬ s.StandsAt needle q

theorem LeftmostFrom.unique (h : s.LeftmostFrom needle offset found)
    (h' : s.LeftmostFrom needle offset found') : found = found' := by
  cases found with
  | none =>
    cases found' with
    | none => rfl
    | some q => exact absurd h'.1.2 (h q h'.1.1)
  | some p =>
    cases found' with
    | none => exact absurd h.1.2 (h' p h.1.1)
    | some q => exact congrArg some (IsLeast.unique h h')

theorem LeftmostFrom.of_skip {next : Nat} (h : s.LeftmostFrom needle next found)
    (hle : offset ≤ next) (hskip : ∀ {q}, offset ≤ q → s.StandsAt needle q → next ≤ q) :
    s.LeftmostFrom needle offset found := by
  cases found with
  | none => exact fun q hq hstands => h q (hskip hq hstands) hstands
  | some p =>
    refine ⟨⟨Nat.le_trans hle h.1.1, h.1.2⟩, ?_⟩
    rintro q ⟨hq, hstands⟩
    exact h.2 ⟨hskip hq hstands, hstands⟩

theorem matchesFrom_iff {index count : Nat} : s.matchesFrom needle p index count = true ↔
    ∀ i, index ≤ i → i < index + count → (s.get? (p + i) == needle.get? i) = true := by
  induction count generalizing index with
  | zero =>
    simp only [matchesFrom, true_iff]
    intro i hi hl
    omega
  | succ count ih =>
    rw [matchesFrom, Bool.and_eq_true, ih]
    constructor
    · rintro ⟨hfirst, hrest⟩ i hi hl
      rcases Nat.eq_or_lt_of_le hi with rfl | hlt
      · exact hfirst
      · exact hrest i hlt (by omega)
    · intro h
      exact ⟨h index (Nat.le_refl _) (by omega), fun i hi hl => h i (by omega) (by omega)⟩

theorem WellFormed.matchesAt_iff (hs : s.WellFormed hashing) (hn : needle.WellFormed hashing)
    (hp : p + needle.length ≤ s.length) :
    s.matchesAt needle p = true ↔ s.StandsAt needle p := by
  rw [matchesAt, matchesFrom_iff, StandsAt, and_iff_right hp]
  -- The test compares optional elements, but none of the positions is past an end.
  constructor
  · intro h i hi
    obtain ⟨x, hx⟩ := hs.exists_get? (show p + i < s.length by omega)
    obtain ⟨y, hy⟩ := hn.exists_get? hi
    have hxy := h i (Nat.zero_le _) (by omega)
    rw [hx, hy] at hxy
    exact ⟨x, y, hx, hy, hxy⟩
  · intro h i _ hi
    obtain ⟨x, y, hx, hy, hxy⟩ := h i (by omega)
    rw [hx, hy]
    exact hxy

theorem StandsAt.holds_head (h : s.StandsAt needle p) (hf : needle.first? = some head)
    (h0 : 0 < needle.length) : s.holds head p = true := by
  obtain ⟨x, y, hx, hy, hxy⟩ := h.2 0 h0
  obtain rfl : y = head := Option.some.inj (hy.symm.trans hf)
  rw [Nat.add_zero] at hx
  rw [holds, hx]
  exact hxy

theorem StandsAt.not_before {q : Nat} (h : s.StandsAt needle q) (hf : needle.first? = some head)
    (h0 : 0 < needle.length) (hq : start ≤ q)
    (hbefore : ∀ q, start ≤ q → q < p → s.holds head q = false) : p ≤ q := by
  by_contra hlt
  have hfalse := hbefore q hq (by omega)
  rw [h.holds_head hf h0] at hfalse
  cases hfalse

theorem standsAt_of_isEmpty (he : needle.isEmpty = true) : s.StandsAt needle p ↔ p ≤ s.length := by
  have h0 : needle.length = 0 := beq_iff_eq.mp he
  rw [StandsAt, h0]
  constructor
  · exact fun h => h.1
  · exact fun h => ⟨h, fun i hi => by omega⟩

theorem WellFormed.standsAt_of_single (hs : s.WellFormed hashing) (hl : needle.length = 1)
    (hf : needle.first? = some value) :
    s.StandsAt needle p ↔ p < s.length ∧ s.holds value p = true := by
  constructor
  · intro h
    refine ⟨?_, h.holds_head hf (by omega)⟩
    have hlast := h.1
    omega
  · rintro ⟨hp, hh⟩
    refine ⟨by omega, fun i hi => ?_⟩
    obtain rfl : i = 0 := by omega
    obtain ⟨x, hx⟩ := hs.exists_get? hp
    rw [holds, hx] at hh
    exact ⟨x, value, hx, hf, hh⟩

theorem WellFormed.firstIn_findWindow {length : Nat} (hs : s.WellFormed hashing)
    (hh : HashAgrees hashing) (value : α) (hw : offset + length ≤ s.length) :
    FirstIn (s.holds value) offset (offset + length)
      (s.findWindow value offset length .forward) := by
  rw [hs.findWindow_eq hh value hw]
  exact firstIn_scan _ offset length

/-- The loop over the places of the needle's first element, with no bound on its turns: from a start
on, it ends with a result. -/
inductive Probes (s needle : Sequence α) (head : α) (lastStart : Nat) : Nat → Option Nat → Prop
    where
  | past {start : Nat} (h : lastStart < start) : Probes s needle head lastStart start none
  | absent {start : Nat} (h : start ≤ lastStart)
      (hf : s.findWindow head start (lastStart - start + 1) .forward = none) :
      Probes s needle head lastStart start none
  | hit {start candidate : Nat} (h : start ≤ lastStart)
      (hf : s.findWindow head start (lastStart - start + 1) .forward = some candidate)
      (hm : s.matchesAt needle candidate = true) :
      Probes s needle head lastStart start (some candidate)
  | miss {start candidate : Nat} {found : Option Nat} (h : start ≤ lastStart)
      (hf : s.findWindow head start (lastStart - start + 1) .forward = some candidate)
      (hm : s.matchesAt needle candidate = false)
      (next : Probes s needle head lastStart (candidate + 1) found) :
      Probes s needle head lastStart start found

/-- The loop ends. -/
theorem WellFormed.exists_probes (hs : s.WellFormed hashing) (needle : Sequence α) (head : α)
    (hl : lastStart < s.length) (start : Nat) :
    ∃ found, Probes s needle head lastStart start found := by
  induction hd : lastStart + 1 - start using Nat.strong_induction_on generalizing start with
  | h left ih =>
    rcases Nat.lt_or_ge lastStart start with hlt | hle
    · exact ⟨none, .past hlt⟩
    · cases hf : s.findWindow head start (lastStart - start + 1) .forward with
      | none => exact ⟨none, .absent hle hf⟩
      | some candidate =>
        cases hm : s.matchesAt needle candidate with
        | true => exact ⟨some candidate, .hit hle hf hm⟩
        | false =>
          -- The candidate is no earlier than the start, so fewer starts are left behind it.
          have hbounds := hs.findWindow_bounds (by omega) hf
          obtain ⟨found, hnext⟩ := ih (lastStart + 1 - (candidate + 1)) (by omega) _ rfl
          exact ⟨found, .miss hle hf hm hnext⟩

/-- As many tries as there are starts are enough for the whole loop. -/
theorem Probes.findCandidate_eq (h : Probes s needle head lastStart start found)
    (hs : s.WellFormed hashing) (hl : lastStart < s.length) {tries : Nat}
    (ht : lastStart + 1 - start ≤ tries) :
    s.findCandidate needle head lastStart start tries = found := by
  induction h generalizing tries with
  | past h =>
    cases tries with
    | zero => rfl
    | succ tries => rw [findCandidate, if_neg (by omega)]
  | absent h hf =>
    obtain ⟨tries, rfl⟩ := Nat.exists_eq_add_one.mpr (show 0 < tries by omega)
    simp only [findCandidate, if_pos h, hf]
  | hit h hf hm =>
    obtain ⟨tries, rfl⟩ := Nat.exists_eq_add_one.mpr (show 0 < tries by omega)
    simp only [findCandidate, if_pos h, hf, hm, if_true]
  | miss h hf hm _ ih =>
    obtain ⟨tries, rfl⟩ := Nat.exists_eq_add_one.mpr (show 0 < tries by omega)
    have hbounds := hs.findWindow_bounds (by omega) hf
    simp only [findCandidate, if_pos h, hf, hm, Bool.false_eq_true, if_false]
    exact ih (by omega)

/-- No turn of the loop skips a position at which the needle stands. -/
theorem Probes.leftmost (h : Probes s needle head lastStart start found)
    (hs : s.WellFormed hashing) (hn : needle.WellFormed hashing) (hh : HashAgrees hashing)
    (hf : needle.first? = some head) (h0 : 0 < needle.length)
    (hl : lastStart + needle.length = s.length) : s.LeftmostFrom needle start found := by
  have hfirst {start : Nat} (h : start ≤ lastStart) {found : Option Nat}
      (hw : s.findWindow head start (lastStart - start + 1) .forward = found) :
      FirstIn (s.holds head) start (lastStart + 1) found := by
    have hi := hs.firstIn_findWindow hh head
      (show start + (lastStart - start + 1) ≤ s.length by omega)
    rwa [hw, show start + (lastStart - start + 1) = lastStart + 1 by omega] at hi
  induction h with
  | past h =>
    intro q hq hstands
    have hlast := hstands.1
    omega
  | absent h hw =>
    intro q hq hstands
    have hlast := hstands.1
    have hnone := hfirst h hw q hq (by omega)
    rw [hstands.holds_head hf h0] at hnone
    cases hnone
  | hit h hw hm =>
    obtain ⟨hc, hc', -, hbefore⟩ := hfirst h hw
    refine ⟨⟨hc, (hs.matchesAt_iff hn (by omega)).mp hm⟩, ?_⟩
    rintro q ⟨hq, hstands⟩
    exact hstands.not_before hf h0 hq hbefore
  | @miss start candidate found h hw hm next ih =>
    obtain ⟨hc, hc', -, hbefore⟩ := hfirst h hw
    -- The needle stands neither before the candidate nor at it, so the next start skips nothing.
    have hskip {q : Nat} (hq : start ≤ q) (hstands : s.StandsAt needle q) : candidate + 1 ≤ q := by
      rcases Nat.eq_or_lt_of_le (hstands.not_before hf h0 hq hbefore) with rfl | hlt
      · rw [(hs.matchesAt_iff hn hstands.1).mpr hstands] at hm
        cases hm
      · exact hlt
    exact ih.of_skip (by omega) hskip

theorem findSequence_single (hl : needle.length = 1) (hf : needle.first? = some value)
    (offset : Nat) : s.findSequence needle offset = s.find value offset := by
  simp only [findSequence, hl, hf]

theorem findSequence_eq_error (h : s.length < offset) :
    s.findSequence needle offset = .error (.invalidArgument .offsetExceedsSequence) := by
  have hl : s.lengthFrom offset = .error (.invalidArgument .offsetExceedsSequence) :=
    if_neg (by omega)
  by_cases hsingle : ∃ value, needle.length = 1 ∧ needle.first? = some value
  · obtain ⟨value, h1, hf⟩ := hsingle
    rw [findSequence_single h1 hf, find, hl]
    rfl
  · rw [findSequence_eq_of_not_single offset fun value h1 hf => hsingle ⟨value, h1, hf⟩, hl]
    rfl

theorem findSequence_of_isEmpty (he : needle.isEmpty = true) (ho : offset ≤ s.length) :
    s.findSequence needle offset = .ok (some offset) := by
  have h0 : needle.length = 0 := beq_iff_eq.mp he
  rw [findSequence_eq_of_not_single offset fun _ h1 _ => by omega, lengthFrom, if_pos ho]
  change (if needle.isEmpty = true then _ else _) = _
  rw [if_pos he]
  rfl

theorem findSequence_of_two_le (h2 : 2 ≤ needle.length) (hf : needle.first? = some head)
    (ho : offset ≤ s.length) : s.findSequence needle offset =
      .ok (if s.length - offset < needle.length then none
        else s.findCandidate needle head (s.length - needle.length) offset
          (s.length - needle.length + 1 - offset)) := by
  have he : ¬ needle.isEmpty = true := by
    rw [isEmpty, beq_iff_eq]
    omega
  rw [findSequence_eq_of_not_single offset fun _ h1 _ => by omega, lengthFrom, if_pos ho, hf,
    apply_ite Except.ok]
  change (if needle.isEmpty = true then _ else _) = _
  rw [if_neg he]
  rfl

theorem WellFormed.find_leftmost (hs : s.WellFormed hashing) (hh : HashAgrees hashing)
    (hl : needle.length = 1) (hf : needle.first? = some value) (ho : offset ≤ s.length) :
    ∃ found, s.find value offset = .ok found ∧ s.LeftmostFrom needle offset found := by
  have hi := hs.firstIn_findWindow hh value (show offset + (s.length - offset) ≤ s.length by omega)
  rw [Nat.add_sub_cancel' ho] at hi
  refine ⟨s.findWindow value offset (s.length - offset) .forward, ?_, ?_⟩
  · rw [find, lengthFrom, if_pos ho]
    rfl
  · cases hw : s.findWindow value offset (s.length - offset) .forward with
    | none =>
      rw [hw] at hi
      intro q hq hstands
      obtain ⟨hlt, hv⟩ := (hs.standsAt_of_single hl hf).mp hstands
      rw [hi q hq hlt] at hv
      cases hv
    | some p =>
      rw [hw] at hi
      obtain ⟨hp, hlt, hv, hbefore⟩ := hi
      refine ⟨⟨hp, (hs.standsAt_of_single hl hf).mpr ⟨hlt, hv⟩⟩, ?_⟩
      rintro q ⟨hq, hstands⟩
      exact hstands.not_before hf (by omega) hq hbefore

theorem WellFormed.probes_leftmost (hs : s.WellFormed hashing) (hn : needle.WellFormed hashing)
    (hh : HashAgrees hashing) (hf : needle.first? = some head) (h0 : 0 < needle.length)
    (hw : offset + needle.length ≤ s.length) :
    ∃ found, Probes s needle head (s.length - needle.length) offset found ∧
      s.LeftmostFrom needle offset found ∧
      ∀ tries, s.length - needle.length + 1 - offset ≤ tries →
        s.findCandidate needle head (s.length - needle.length) offset tries = found := by
  have hl : s.length - needle.length < s.length := by omega
  obtain ⟨found, hp⟩ := hs.exists_probes needle head hl offset
  exact ⟨found, hp, hp.leftmost hs hn hh hf h0 (by omega), fun _ => hp.findCandidate_eq hs hl⟩

theorem WellFormed.exists_leftmost (hs : s.WellFormed hashing) (hn : needle.WellFormed hashing)
    (hh : HashAgrees hashing) (hf : needle.first? = some head) (h0 : 0 < needle.length)
    (ho : offset ≤ s.length) :
    ∃ found, s.findSequence needle offset = .ok found ∧ s.LeftmostFrom needle offset found := by
  rcases Nat.eq_or_lt_of_le h0 with h1 | h2
  · rw [findSequence_single h1.symm hf]
    exact hs.find_leftmost hh h1.symm hf ho
  · rw [findSequence_of_two_le h2 hf ho]
    by_cases hw : offset + needle.length ≤ s.length
    · obtain ⟨found, -, hleft, htries⟩ := hs.probes_leftmost hn hh hf h0 hw
      rw [if_neg (by omega), htries _ (Nat.le_refl _)]
      exact ⟨found, rfl, hleft⟩
    · rw [if_pos (by omega)]
      refine ⟨none, rfl, fun q hq hstands => ?_⟩
      have hlast := hstands.1
      omega

end Sequence

open Sequence

variable {α : Type} [BEq α] {hashing : Option (ElementHash α)}

/-- A search for a subsequence fails exactly for an offset past the end. Otherwise it gives the
leftmost position from the offset on at which the needle stands, and for an empty needle the offset;
where the needle fits in, that is also what the loop over the places of its first element ends with,
whether the needle has one element or more. -/
theorem Reachable.findSequence_leftmost {s needle : Sequence α} (hs : Reachable hashing s)
    (hn : Reachable hashing needle) (hh : HashAgrees hashing) (offset : Nat) :
    (s.length < offset →
        s.findSequence needle offset = .error (.invalidArgument .offsetExceedsSequence)) ∧
      (offset ≤ s.length → ∃ found, s.findSequence needle offset = .ok found ∧
        s.LeftmostFrom needle offset found ∧
        (needle.isEmpty = true → found = some offset) ∧
        ∀ head, needle.first? = some head → offset + needle.length ≤ s.length →
          Probes s needle head (s.length - needle.length) offset found ∧
            ∀ tries, s.length - needle.length + 1 - offset ≤ tries →
              s.findCandidate needle head (s.length - needle.length) offset tries = found) := by
  refine ⟨findSequence_eq_error, fun ho => ?_⟩
  replace hs := hs.wellFormed
  replace hn := hn.wellFormed
  by_cases he : needle.isEmpty = true
  · refine ⟨some offset, findSequence_of_isEmpty he ho, ⟨⟨Nat.le_refl _, ?_⟩, fun q hq => hq.1⟩,
      fun _ => rfl, fun head hf _ => ?_⟩
    · exact (standsAt_of_isEmpty he).mpr ho
    · have hnone : needle.first? = none := (hn.get?_eq 0).trans
        (List.getElem?_eq_none (by rw [hn.length_toList, beq_iff_eq.mp he]))
      rw [hnone] at hf
      cases hf
  · have h0 : 0 < needle.length := Nat.pos_of_ne_zero fun h0 => he (beq_iff_eq.mpr h0)
    obtain ⟨value, hv⟩ := hn.exists_get? h0
    obtain ⟨found, hfound, hleft⟩ := hs.exists_leftmost hn hh hv h0 ho
    refine ⟨found, hfound, hleft, fun h => absurd h he, fun head hf hw => ?_⟩
    obtain ⟨found', hp, hleft', htries⟩ := hs.probes_leftmost hn hh hf h0 hw
    obtain rfl := hleft.unique hleft'
    exact ⟨hp, htries⟩

theorem reachable_pair : Reachable (some parity) (.run 0 5 2) :=
  ⟨_, _, Run.start.step (.replicate 2 5) rfl, .head _⟩

/-- The first element of the needle stands at the offset already, but in front of another element,
and the needle itself only at the end of the sequence. -/
theorem findSequence_leftmost_mixed : ∃ found, mixed.findSequence (.run 0 5 2) 1 = .ok found ∧
    mixed.LeftmostFrom (.run 0 5 2) 1 found ∧ Probes mixed (.run 0 5 2) 5 3 1 found := by
  obtain ⟨found, hfound, hleft, -, hloop⟩ :=
    (reachable_mixed.findSequence_leftmost reachable_pair hashAgrees_parity 1).2 (by decide)
  exact ⟨found, hfound, hleft, (hloop 5 rfl (by decide)).1⟩

example : mixed.findSequence (.run 0 5 2) 1 = .ok (some 3) := by
  rfl

end SharedSequence
