import CallScript.Proofs.Assembly.Scanning

/-!
# Lines of words

A line of tokens with one blank between each two has these tokens again. A word is a token if none of
its characters means something to the scanner.
-/

namespace CallScript.Assembly

/-- Nothing to the scanner but a part of a token: no blank, comma, quote, parenthesis or `#`. -/
def IsPlain (c : Char) : Prop :=
  Text.isBlank c = false ∧ c ≠ ',' ∧ c ≠ '#' ∧ c ≠ '"' ∧ c ≠ '(' ∧ c ≠ ')'

instance (c : Char) : Decidable (IsPlain c) := inferInstanceAs (Decidable (_ ∧ _))

/-- A text that stands for itself in a line. -/
def IsWord (text : String) : Prop :=
  text.toList ≠ [] ∧ ∀ c ∈ text.toList, IsPlain c

instance (text : String) : Decidable (IsWord text) :=
  @instDecidableAnd _ _ inferInstance (List.decidableBAll IsPlain text.toList)

/-- The line of some words. -/
def wordsLine (words : List String) : List Char :=
  (" ".intercalate words).toList

theorem wordsLine_singleton (word : String) : wordsLine [word] = word.toList := by
  simp [wordsLine]

theorem wordsLine_cons_cons (word next : String) (rest : List String) :
    wordsLine (word :: next :: rest) = word.toList ++ ' ' :: wordsLine (next :: rest) := by
  simp only [wordsLine, String.intercalate_cons_cons, String.toList_append, List.append_assoc]
  rfl

theorem mem_wordsLine {words : List String} (h : ∀ word ∈ words, IsWord word) {c : Char}
    (hc : c ∈ wordsLine words) : IsPlain c ∨ c = ' ' := by
  match words with
  | [] => simp [wordsLine] at hc
  | [word] =>
      rw [wordsLine_singleton] at hc
      exact .inl ((h word (List.mem_cons_self ..)).2 c hc)
  | word :: next :: rest =>
      obtain ⟨hword, hrest⟩ := List.forall_mem_cons.mp h
      rw [wordsLine_cons_cons, List.mem_append, List.mem_cons] at hc
      rcases hc with hc | rfl | hc
      · exact .inl (hword.2 c hc)
      · exact .inr rfl
      · exact mem_wordsLine hrest hc

theorem IsWord.isToken {word : String} (h : IsWord word) : IsToken word.toList := by
  obtain ⟨hne, hplain⟩ := h
  refine ⟨hne, ?_⟩
  generalize word.toList = text at hplain
  clear hne
  induction text with
  | nil => rfl
  | cons c text ih =>
      obtain ⟨⟨hblank, hcomma, hhash, hquote, hopen, hclose⟩, htext⟩ := List.forall_mem_cons.mp hplain
      have hnext : Nesting.next? (.plain 0) c = some (.plain 0) := by
        simp [Nesting.next?, IsSeparator, hblank, hcomma, hhash, hquote, hopen, hclose]
      rw [List.foldlM_cons, hnext]
      exact ih htext

theorem Nesting.not_isBlank {before : Nesting} {c : Char} (h : before.next? c = some (.plain 0)) :
    Text.isBlank c = false := by
  refine Bool.eq_false_iff.mpr fun hblank => ?_
  have hne (d : Char) (hd : Text.isBlank d = false) : c ≠ d := by
    rintro rfl
    rw [hd] at hblank
    cases hblank
  cases before with
  | escaped depth => cases h
  | quoted depth =>
      simp only [next?, if_neg (hne '"' (by decide)), Option.some.injEq] at h
      split at h <;> cases h
  | plain depth =>
      rw [next?] at h
      split at h
      · cases h
      · next hnext =>
        simp only [if_neg (hne '"' (by decide)), if_neg (hne '(' (by decide)), if_neg (hne ')' (by decide)),
          Option.some.injEq, plain.injEq] at h
        exact hnext (.inr ⟨h, .inr (.inl hblank)⟩)

theorem IsToken.not_isBlank_getLast {text : List Char} (h : IsToken text) {c : Char}
    (hc : text.getLast? = some c) : Text.isBlank c = false := by
  obtain ⟨front, rfl⟩ := List.getLast?_eq_some_iff.mp hc
  have hfold := h.2
  rw [List.foldlM_append] at hfold
  obtain ⟨before, -, hlast⟩ := Option.bind_eq_some_iff.mp hfold
  exact Nesting.not_isBlank (by simpa using hlast)

theorem splits_wordsLine (words : List String) (h : ∀ word ∈ words, IsToken word.toList) (column : Nat) :
    ∃ tokens, Splits column (wordsLine words) tokens ∧ tokens.map (·.text) = words := by
  match words with
  | [] => exact ⟨[], .nil column, rfl⟩
  | [word] =>
      have hsplits := Splits.token (h word (List.mem_cons_self ..)) (fun _ hc => by cases hc)
        (.nil (column + Text.size word.toList))
      rw [List.append_nil, String.ofList_toList] at hsplits
      exact ⟨_, wordsLine_singleton word ▸ hsplits, rfl⟩
  | word :: next :: rest =>
      obtain ⟨hword, hrest⟩ := List.forall_mem_cons.mp h
      obtain ⟨tokens, hsplits, htexts⟩ :=
        splits_wordsLine (next :: rest) hrest (column + Text.size word.toList + ' '.utf8Size)
      have hblank : IsSeparator ' ' := .inl rfl
      refine ⟨⟨word, column⟩ :: tokens, ?_, by rw [List.map_cons, htexts]⟩
      rw [wordsLine_cons_cons]
      have hline := Splits.token hword (fun _ hc => by cases hc; exact .inl hblank) (hsplits.separator hblank)
      rwa [String.ofList_toList] at hline

theorem tokenize_tokensLine {words : List String} (h : ∀ word ∈ words, IsToken word.toList) :
    ∃ tokens, tokenize (wordsLine words) = .ok tokens ∧ tokens.map (·.text) = words := by
  obtain ⟨tokens, hsplits, htexts⟩ := splits_wordsLine words h 1
  exact ⟨tokens, tokenize_eq_ok.mpr hsplits, htexts⟩

/-- The tokens of a line of words are the words. -/
theorem tokenize_wordsLine {words : List String} (h : ∀ word ∈ words, IsWord word) :
    ∃ tokens, tokenize (wordsLine words) = .ok tokens ∧ tokens.map (·.text) = words :=
  tokenize_tokensLine fun word hword => (h word hword).isToken

end CallScript.Assembly
