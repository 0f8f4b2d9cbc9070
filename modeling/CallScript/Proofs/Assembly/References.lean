import CallScript.Proofs.Assembly.Reassembly
import Mathlib.Data.List.Induction
import Mathlib.Data.Nat.Digits.Defs

/-!
# References to slots

A slot is referred to by a letter for its kind and its number in decimal digits. All that is written so is
read, as the slot that the digits stand for. A sign in front of the digits is read as well, and nothing else.
-/

namespace CallScript

/-! ## Numerals -/

namespace Text

/-- Decimal digits, at least one, and the number that they stand for. -/
structure Numeral (digits : List Char) (n : Nat) : Prop where
  ne_nil : digits ≠ []
  isDigit : ∀ c ∈ digits, isDigit c = true
  value : Nat.ofDigits 10 (digits.map digitValue).reverse = n

/-- A numeral behind a sign. -/
def Signed (text : List Char) (n : Nat) : Prop :=
  ∃ digits, text = '+' :: digits ∧ Numeral digits n

variable {text : List Char} {bits m n : Nat}

theorem not_numeral_cons {c : Char} (h : isDigit c = false) (rest : List Char) : ¬ Numeral (c :: rest) n := by
  intro hnumeral
  have hc := hnumeral.isDigit c (List.mem_cons_self ..)
  exact absurd (h.symm.trans hc) nofun

theorem Signed.not_numeral (h : Signed text n) : ¬ Numeral text m := by
  obtain ⟨digits, rfl, -⟩ := h
  exact not_numeral_cons (by decide) digits

theorem numeral_unsign_iff : Numeral (unsign text) n ↔ Numeral text n ∨ Signed text n := by
  unfold unsign
  split
  · next digits =>
    constructor
    · intro h
      exact .inr ⟨digits, rfl, h⟩
    · rintro (h | ⟨rest, heq, h⟩)
      · exact absurd h (not_numeral_cons (by decide) digits)
      · cases heq
        exact h
  · next hplain =>
    refine (or_iff_left ?_).symm
    rintro ⟨digits, rfl, -⟩
    exact hplain digits rfl

theorem decimalValue_eq_ofDigits (digits : List Char) :
    decimalValue digits = Nat.ofDigits 10 (digits.map digitValue).reverse := by
  induction digits using List.reverseRecOn with
  | nil => rfl
  | append_singleton digits c ih =>
      have hconcat : decimalValue (digits ++ [c]) = decimalValue digits * 10 + digitValue c := by
        simp [decimalValue]
      rw [hconcat, ih, List.map_append, List.reverse_append, List.map_singleton, List.reverse_singleton,
        List.singleton_append, Nat.ofDigits_cons]
      omega

/-- What is read as a number: a numeral that may have a sign in front, if its value takes no more bits than are
asked for. -/
theorem decimal?_eq_some_iff :
    decimal? bits text = some n ↔ (Numeral text n ∨ Signed text n) ∧ n < 2 ^ bits := by
  rw [← numeral_unsign_iff, decimal?, decimalValue_eq_ofDigits, Nat.one_shiftLeft]
  constructor
  · intro h
    split at h
    · cases h
    · next hdigits =>
      simp only [Bool.or_eq_true, List.isEmpty_iff, Bool.not_eq_true', ← Bool.not_eq_true, not_or, not_not,
        List.all_eq_true] at hdigits
      split at h
      · next hfits =>
        cases h
        exact ⟨⟨hdigits.1, hdigits.2, rfl⟩, hfits⟩
      · cases h
  · rintro ⟨⟨hne, hdigits, rfl⟩, hfits⟩
    have hall : (unsign text).all isDigit = true := List.all_eq_true.mpr hdigits
    simp [hne, hall, hfits]

end Text

namespace Assembly

/-! ## How slots are referred to -/

/-- A text is a letter for the kind of a slot and then the number of one, written as `Number` says. -/
inductive Refers (Number : List Char → Nat → Prop) (text : String) : Arg → Prop
  | static {digits : List Char} {slot : UInt8} :
    text.toList = 's' :: digits → Number digits slot.toNat → slot.toNat < maxSlots →
    Refers Number text (.static slot)
  | dynamic {digits : List Char} {slot : UInt8} :
    text.toList = 'd' :: digits → Number digits slot.toNat → slot.toNat < maxSlots →
    Refers Number text (.dynamic slot)

/-- The spellings of arguments: the keyword, or a slot with a numeral. -/
inductive SpellsArg (text : String) : Arg → Prop
  | state : text = "state" → SpellsArg text .state
  | slot {arg : Arg} : Refers Text.Numeral text arg → SpellsArg text arg

/-- The output that has the spelling of an argument. -/
def outputOf : Arg → Output
  | .static slot => .static slot
  | .dynamic slot => .dynamic slot
  | .state => .replaceState

/-- The spellings of outputs: those of arguments, and a mark for none. -/
inductive SpellsOutput (text : String) : Output → Prop
  | discard : text = "_" → SpellsOutput text .discard
  | arg {arg : Arg} : SpellsArg text arg → SpellsOutput text (outputOf arg)

variable {Number : List Char → Nat → Prop} {text : String} {arg arg' : Arg} {output : Output}

/-! ## What is read -/

theorem parseSlotIndex_eq_ok_iff {digits : List Char} {slot : UInt8} :
    parseSlotIndex digits = .ok slot ↔
      (Text.Numeral digits slot.toNat ∨ Text.Signed digits slot.toNat) ∧ slot.toNat < maxSlots := by
  constructor
  · intro h
    have hlt := parseSlotIndex_lt h
    unfold parseSlotIndex at h
    split at h
    · cases h
    · next index hindex =>
      split at h
      · next hindexLt =>
        cases h
        have hslot : (UInt8.ofNat index).toNat = index :=
          UInt8.toNat_ofNat_of_lt' (Nat.lt_trans hindexLt (by decide))
        rw [hslot] at hlt ⊢
        exact ⟨(Text.decimal?_eq_some_iff.mp hindex).1, hlt⟩
      · cases h
  · rintro ⟨hnumber, hlt⟩
    have hindex : Text.decimal? 64 digits = some slot.toNat :=
      Text.decimal?_eq_some_iff.mpr ⟨hnumber, Nat.lt_trans hlt (by decide)⟩
    simp [parseSlotIndex, hindex, hlt]

section

variable (hread : ∀ {digits n}, Number digits n → Text.Numeral digits n ∨ Text.Signed digits n)
include hread

/-- The keyword begins with a letter for a kind, and no number follows it. -/
theorem Refers.ne_state (h : Refers Number text arg) : text ≠ "state" := by
  rintro rfl
  cases h with
  | static htext hnumber =>
      cases htext
      rcases hread hnumber with hnumeral | ⟨digits, htail, -⟩
      · exact Text.not_numeral_cons (by decide) _ hnumeral
      · cases htail
  | dynamic htext => cases htext

theorem parseArg_of_refers (h : Refers Number text arg) : parseArg text = .ok arg := by
  rw [parseArg, if_neg (h.ne_state hread)]
  cases h with
  | static htext hnumber hlt =>
      rw [htext]
      exact congrArg (Arg.static <$> ·) (parseSlotIndex_eq_ok_iff.mpr ⟨hread hnumber, hlt⟩)
  | dynamic htext hnumber hlt =>
      rw [htext]
      exact congrArg (Arg.dynamic <$> ·) (parseSlotIndex_eq_ok_iff.mpr ⟨hread hnumber, hlt⟩)

end

theorem spells_or_refers_of_parseArg (h : parseArg text = .ok arg) :
    SpellsArg text arg ∨ Refers Text.Signed text arg := by
  unfold parseArg at h
  split at h
  · next htext =>
    cases h
    exact .inl (.state htext)
  · split at h
    · next digits htext =>
      obtain ⟨slot, hindex, rfl⟩ := Except.map_eq_ok.mp h
      obtain ⟨hnumeral | hsigned, hlt⟩ := parseSlotIndex_eq_ok_iff.mp hindex
      · exact .inl (.slot (.static htext hnumeral hlt))
      · exact .inr (.static htext hsigned hlt)
    · next digits htext =>
      obtain ⟨slot, hindex, rfl⟩ := Except.map_eq_ok.mp h
      obtain ⟨hnumeral | hsigned, hlt⟩ := parseSlotIndex_eq_ok_iff.mp hindex
      · exact .inl (.slot (.dynamic htext hnumeral hlt))
      · exact .inr (.dynamic htext hsigned hlt)
    · cases h

theorem parseArg_eq_ok_iff : parseArg text = .ok arg ↔ SpellsArg text arg ∨ Refers Text.Signed text arg := by
  refine ⟨spells_or_refers_of_parseArg, ?_⟩
  rintro ((htext | hrefers) | hrefers)
  · subst htext
    rfl
  · exact parseArg_of_refers .inl hrefers
  · exact parseArg_of_refers .inr hrefers

/-- Outputs are read as arguments are, and one text more. -/
theorem parseOutput_iff_parseArg : parseOutput text = .ok output ↔
    text = "_" ∧ output = .discard ∨ ∃ arg, parseArg text = .ok arg ∧ output = outputOf arg := by
  by_cases hdiscard : text = "_"
  · subst hdiscard
    have hnone : parseArg "_" = .error (.expectedArg "_") := rfl
    simp [parseOutput, hnone, eq_comm]
  · by_cases hstate : text = "state"
    · subst hstate
      have hall : parseArg "state" = .ok .state := rfl
      simp [parseOutput, hall, outputOf, eq_comm]
    · rw [parseOutput, if_neg hdiscard, if_neg hstate]
      cases harg : parseArg text with
      | error reason => simp [hdiscard]
      | ok arg =>
          cases arg with
          | static slot => simp [hdiscard, outputOf, eq_comm]
          | dynamic slot => simp [hdiscard, outputOf, eq_comm]
          | state =>
              -- Nothing but the keyword is read as the whole state.
              rcases parseArg_eq_ok_iff.mp harg with (htext | hrefers) | hrefers
              · exact absurd htext hstate
              · cases hrefers
              · cases hrefers

theorem parseOutput_eq_ok_iff : parseOutput text = .ok output ↔
    SpellsOutput text output ∨ ∃ arg, Refers Text.Signed text arg ∧ output = outputOf arg := by
  rw [parseOutput_iff_parseArg]
  constructor
  · rintro (⟨htext, rfl⟩ | ⟨arg, harg, rfl⟩)
    · exact .inl (.discard htext)
    · exact (parseArg_eq_ok_iff.mp harg).imp .arg fun hsigned => ⟨arg, hsigned, rfl⟩
  · rintro ((htext | hspells) | ⟨arg, hsigned, rfl⟩)
    · exact .inl ⟨htext, rfl⟩
    · exact .inr ⟨_, parseArg_eq_ok_iff.mpr (.inl hspells), rfl⟩
    · exact .inr ⟨arg, parseArg_eq_ok_iff.mpr (.inr hsigned), rfl⟩

/-! ## Signs are in no spelling -/

theorem Refers.not_spellsArg (h : Refers Text.Signed text arg) : ¬ SpellsArg text arg' := by
  rintro (htext | hrefers)
  · exact h.ne_state .inr htext
  · -- The number is what stands behind the letter, in whichever way it is written.
    cases h <;> cases hrefers <;> grind [Text.Signed.not_numeral]

theorem Refers.not_spellsOutput (h : Refers Text.Signed text arg) : ¬ SpellsOutput text output := by
  rintro (htext | hspells)
  · subst htext
    cases h with
    | static htext => cases htext
    | dynamic htext => cases htext
  · exact h.not_spellsArg hspells

theorem parseArg_iff_spells_iff :
    (∀ arg, parseArg text = .ok arg ↔ SpellsArg text arg) ↔ ¬ ∃ arg, Refers Text.Signed text arg := by
  constructor
  · rintro h ⟨arg, hsigned⟩
    exact hsigned.not_spellsArg ((h arg).mp (parseArg_eq_ok_iff.mpr (.inr hsigned)))
  · intro h arg
    rw [parseArg_eq_ok_iff]
    exact or_iff_left fun hsigned => h ⟨arg, hsigned⟩

theorem parseOutput_iff_spells_iff :
    (∀ output, parseOutput text = .ok output ↔ SpellsOutput text output) ↔
      ¬ ∃ arg, Refers Text.Signed text arg := by
  constructor
  · rintro h ⟨arg, hsigned⟩
    have hread : parseOutput text = .ok (outputOf arg) := parseOutput_eq_ok_iff.mpr (.inr ⟨arg, hsigned, rfl⟩)
    exact hsigned.not_spellsOutput ((h _).mp hread)
  · intro h output
    rw [parseOutput_eq_ok_iff]
    exact or_iff_left fun ⟨arg, hsigned, _⟩ => h ⟨arg, hsigned⟩

/-! ## References -/

/-- Which texts are read as arguments and as outputs. All spellings are read, each as what it spells; besides,
only the letter of a slot with a signed number behind it, which is no spelling. So a text is read if and only
if it is a spelling, except where there is a sign. Every argument and output that can be addressed is read
back from its own text, and from its byte. -/
theorem references_exact (text : String) :
    (∀ arg, parseArg text = .ok arg ↔ SpellsArg text arg ∨ Refers Text.Signed text arg) ∧
    (∀ output, parseOutput text = .ok output ↔
      SpellsOutput text output ∨ ∃ arg, Refers Text.Signed text arg ∧ output = outputOf arg) ∧
    ((∀ arg, parseArg text = .ok arg ↔ SpellsArg text arg) ↔ ¬ ∃ arg, Refers Text.Signed text arg) ∧
    ((∀ output, parseOutput text = .ok output ↔ SpellsOutput text output) ↔
      ¬ ∃ arg, Refers Text.Signed text arg) ∧
    (∀ arg : Arg, arg.InRange → parseArg arg.render = .ok arg ∧ Arg.ofByte? arg.toByte = some arg) ∧
    ∀ output : Output, output.InRange →
      parseOutput output.render = .ok output ∧ Output.ofByte output.toByte = output := by
  refine ⟨fun arg => parseArg_eq_ok_iff, fun output => parseOutput_eq_ok_iff, parseArg_iff_spells_iff,
    parseOutput_iff_spells_iff, ?_, ?_⟩
  · intro arg harg
    exact ⟨parseArg_render harg, Arg.ofByte?_toByte harg⟩
  · intro output houtput
    exact ⟨parseOutput_render houtput, Output.ofByte_toByte houtput⟩

/-- The last slot, whose byte as a dynamic one is right below the marks for the state and for nothing. -/
theorem references_exact_last_slot :
    let arg : Arg := .dynamic 125
    let output : Output := .dynamic 125
    (arg.InRange ∧ parseArg arg.render = .ok arg ∧ Arg.ofByte? arg.toByte = some arg) ∧
      output.InRange ∧ parseOutput output.render = .ok output ∧ Output.ofByte output.toByte = output := by
  intro arg output
  obtain ⟨-, -, -, -, hargs, houtputs⟩ := references_exact arg.render
  have hlast : (125 : UInt8).toNat < maxSlots := by decide
  exact ⟨⟨hlast, hargs arg hlast⟩, hlast, houtputs output hlast⟩

/-- A number with a sign is read, and is in no spelling. -/
theorem references_exact_sign :
    ¬ ((∃ arg, parseArg "s+5" = .ok arg) ↔ ∃ arg, SpellsArg "s+5" arg) ∧
      ¬ ((∃ output, parseOutput "s+5" = .ok output) ↔ ∃ output, SpellsOutput "s+5" output) := by
  have hnumeral : Text.Numeral ['5'] 5 := ⟨by decide, List.forall_mem_singleton.mpr (by decide), by decide⟩
  have hsigned : Refers Text.Signed "s+5" (.static 5) := .static (by decide) ⟨['5'], rfl, hnumeral⟩ (by decide)
  refine ⟨fun h => ?_, fun h => ?_⟩
  · obtain ⟨arg, hspells⟩ := h.mp ⟨.static 5, parseArg_eq_ok_iff.mpr (.inr hsigned)⟩
    exact hsigned.not_spellsArg hspells
  · obtain ⟨output, hspells⟩ := h.mp ⟨.static 5, parseOutput_eq_ok_iff.mpr (.inr ⟨_, hsigned, rfl⟩)⟩
    exact hsigned.not_spellsOutput hspells

end Assembly

end CallScript
