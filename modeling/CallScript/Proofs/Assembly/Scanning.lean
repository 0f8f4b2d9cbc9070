import CallScript.Assembly.Token
import CallScript.Proofs.Except
import CallScript.Proofs.Text

/-!
# How a line is made of tokens

A token is a text that leads the scanner out of all quotes and parentheses again. A line that can be
read is made of such texts with separators between them, and perhaps a comment at its end; the scanner
finds exactly these texts. What it reports of any other line is a place in that line.
-/

namespace CallScript.Assembly

/-! ## Tokens -/

/-- Stands between tokens. -/
def IsSeparator (c : Char) : Prop :=
  Text.isBlank c = true ∨ c = ','

instance (c : Char) : Decidable (IsSeparator c) := inferInstanceAs (Decidable (_ ∨ _))

/-- How deep inside a token the scanner is: in how many parentheses, and in quotes or behind a backslash
there. -/
inductive Nesting where
  | plain (depth : Nat)
  | quoted (depth : Nat)
  | escaped (depth : Nat)
  deriving DecidableEq

/-- Where a character leads that belongs to a token. -/
def Nesting.next? : Nesting → Char → Option Nesting
  | .escaped depth, _ => some (.quoted depth)
  | .quoted depth, c =>
    some (if c = '\\' then .escaped depth else if c = '"' then .plain depth else .quoted depth)
  | .plain depth, c =>
    if c = '#' ∨ depth = 0 ∧ (c = ')' ∨ IsSeparator c) then none
    else if c = '"' then some (.quoted depth)
    else if c = '(' then some (.plain (depth + 1))
    else if c = ')' then some (.plain (depth - 1))
    else some (.plain depth)

/-- A text that is one token wherever separators stand around it. -/
def IsToken (text : List Char) : Prop :=
  text ≠ [] ∧ text.foldlM Nesting.next? (.plain 0) = some (.plain 0)

instance (text : List Char) : Decidable (IsToken text) := inferInstanceAs (Decidable (_ ∧ _))

/-- Nothing follows that belongs to the token before it. -/
def EndsToken (rest : List Char) : Prop :=
  ∀ c ∈ rest.head?, IsSeparator c ∨ c = '#'

/-- The tokens that a line, from a column on, is made of. -/
inductive Splits : (column : Nat) → List Char → List Token → Prop
  | nil (column : Nat) : Splits column [] []
  | comment (column : Nat) (rest : List Char) : Splits column ('#' :: rest) []
  | separator {column : Nat} {c : Char} {rest : List Char} {tokens : List Token} :
      IsSeparator c → Splits (column + c.utf8Size) rest tokens → Splits column (c :: rest) tokens
  | token {column : Nat} {text rest : List Char} {tokens : List Token} :
      IsToken text → EndsToken rest → Splits (column + Text.size text) rest tokens →
      Splits column (text ++ rest) (⟨.ofList text, column⟩ :: tokens)

/-! ## Scanning -/

namespace Token

/-- What the scanner knows, apart from where the quotes began. -/
def nesting : Mode → (depth : Nat) → Nesting
  | .plain, depth => .plain depth
  | .quoted _, depth => .quoted depth
  | .escaped _, depth => .escaped depth

theorem eq_of_nesting {mode : Mode} {depth n : Nat} (h : nesting mode depth = .plain n) :
    mode = .plain ∧ depth = n := by
  cases mode <;> cases h
  exact ⟨rfl, rfl⟩

/-- Outside of quotes, a character that ends no token is added to one. -/
theorem scan_plain_next {depth : Nat} {c : Char} (h : ¬ (c = '#' ∨ depth = 0 ∧ (c = ')' ∨ IsSeparator c)))
    (column : Nat) (open? : Option Partial) (rest : List Char) :
    scan .plain depth column open? (c :: rest) =
      scan (if c = '"' then .quoted column else .plain)
        (if c = '(' then depth + 1 else if c = ')' then depth - 1 else depth)
        (column + c.utf8Size) (extend open? column c) rest := by
  obtain ⟨hhash, hdepth⟩ := not_or.mp h
  have hclose : ¬ (c = ')' ∧ depth = 0) := fun hc => hdepth ⟨hc.2, .inl hc.1⟩
  have hseparator : ¬ (depth = 0 ∧ (Text.isBlank c = true ∨ c = ',')) := fun hc => hdepth ⟨hc.1, .inr hc.2⟩
  rw [scan, if_neg hhash, if_neg hclose, if_neg hseparator]

theorem scan_next {mode : Mode} {depth : Nat} {c : Char} {next : Nesting}
    (h : (nesting mode depth).next? c = some next) (column : Nat) (open? : Option Partial) (rest : List Char) :
    ∃ mode' depth', nesting mode' depth' = next ∧
      scan mode depth column open? (c :: rest) =
        scan mode' depth' (column + c.utf8Size) (extend open? column c) rest := by
  cases mode with
  | escaped quote =>
      cases h
      exact ⟨.quoted quote, depth, rfl, rfl⟩
  | quoted quote =>
      cases h
      refine ⟨_, depth, ?_, rfl⟩
      split
      · rfl
      · split <;> rfl
  | plain =>
      simp only [nesting, Nesting.next?] at h
      split at h
      · cases h
      · next hplain =>
        refine ⟨_, _, ?_, scan_plain_next hplain column open? rest⟩
        split at h
        · next hquote =>
          subst hquote
          cases h
          rfl
        · next hquote =>
          rw [if_neg hquote]
          split at h
          · next hopen =>
            cases h
            rw [if_pos hopen]
            rfl
          · next hopen =>
            rw [if_neg hopen]
            split at h
            · next hclose =>
              cases h
              rw [if_pos hclose]
              rfl
            · next hclose =>
              cases h
              rw [if_neg hclose]
              rfl

theorem scan_text {text : List Char} {mode : Mode} {depth : Nat} {last : Nesting}
    (h : text.foldlM Nesting.next? (nesting mode depth) = some last) (column start : Nat)
    (reversed rest : List Char) :
    ∃ mode' depth', nesting mode' depth' = last ∧
      scan mode depth column (some ⟨start, reversed⟩) (text ++ rest) =
        scan mode' depth' (column + Text.size text) (some ⟨start, text.reverse ++ reversed⟩) rest := by
  induction text generalizing mode depth column reversed with
  | nil =>
      cases h
      exact ⟨mode, depth, rfl, rfl⟩
  | cons c text ih =>
      obtain ⟨next, hnext, h⟩ := Option.bind_eq_some_iff.mp h
      obtain ⟨mode', depth', rfl, hscan⟩ := scan_next hnext column (some ⟨start, reversed⟩) (text ++ rest)
      obtain ⟨mode'', depth'', hlast, htext⟩ := ih h (column + c.utf8Size) (c :: reversed)
      refine ⟨mode'', depth'', hlast, hscan.trans (htext.trans ?_)⟩
      rw [Text.size_cons, Nat.add_assoc, List.reverse_cons, List.append_assoc, List.singleton_append]

/-- A token is read from its first character to its last. -/
theorem scan_token {text : List Char} (h : IsToken text) (column : Nat) (rest : List Char) :
    scan .plain 0 column none (text ++ rest) =
      scan .plain 0 (column + Text.size text) (some ⟨column, text.reverse⟩) rest := by
  obtain ⟨hne, hlast⟩ := h
  cases text with
  | nil => exact absurd rfl hne
  | cons c text =>
      obtain ⟨next, hnext, hlast⟩ := Option.bind_eq_some_iff.mp hlast
      obtain ⟨mode, depth, rfl, hscan⟩ := @scan_next .plain 0 c next hnext column none (text ++ rest)
      obtain ⟨mode', depth', hplain, htext⟩ := scan_text hlast (column + c.utf8Size) column [c] rest
      obtain ⟨rfl, rfl⟩ := eq_of_nesting hplain
      rw [List.cons_append, hscan, Text.size_cons, ← Nat.add_assoc, List.reverse_cons]
      exact htext

theorem scan_separator {c : Char} (h : IsSeparator c) (column : Nat) (open? : Option Partial)
    (rest : List Char) :
    scan .plain 0 column open? (c :: rest) = (do
      let tokens ← scan .plain 0 (column + c.utf8Size) none rest
      return close open? ++ tokens) := by
  have hhash : c ≠ '#' := by
    rintro rfl
    exact absurd h (by decide)
  have hclose : ¬ (c = ')' ∧ 0 = 0) := by
    rintro ⟨rfl, -⟩
    exact absurd h (by decide)
  rw [scan, if_neg hhash, if_neg hclose, if_pos ⟨rfl, h⟩]

theorem scan_comment (depth column : Nat) (open? : Option Partial) (rest : List Char) :
    scan .plain depth column open? ('#' :: rest) = finish depth column open? := by
  rw [scan, if_pos rfl]

/-- A token that has begun ends where nothing follows that belongs to it. -/
theorem scan_endsToken {column : Nat} {rest : List Char} {tokens : List Token} (h : EndsToken rest)
    (hrest : scan .plain 0 column none rest = .ok tokens) (p : Partial) :
    scan .plain 0 column (some p) rest = .ok (⟨.ofList p.reversed.reverse, p.column⟩ :: tokens) := by
  cases rest with
  | nil =>
      cases hrest
      rfl
  | cons c rest =>
      rcases h c rfl with hc | rfl
      · rw [scan_separator hc] at hrest ⊢
        obtain ⟨tokens', hscan, hpure⟩ := Except.bind_eq_ok.mp hrest
        cases hpure
        rw [hscan]
        rfl
      · rw [scan_comment] at hrest ⊢
        cases hrest
        rfl

end Token

theorem Splits.scan {column : Nat} {line : List Char} {tokens : List Token} (h : Splits column line tokens) :
    Token.scan .plain 0 column none line = .ok tokens := by
  induction h with
  | nil column => rfl
  | comment column rest => exact Token.scan_comment 0 column none rest
  | separator hc _ ih => rw [Token.scan_separator hc, ih]; rfl
  | @token column text rest tokens htext hrest _ ih =>
      rw [Token.scan_token htext, Token.scan_endsToken hrest ih, List.reverse_reverse]

namespace Token

/-- The token that has begun with the given characters. -/
def begun (start : Nat) : List Char → Option Partial
  | [] => none
  | text => some ⟨start, text.reverse⟩

theorem extend_begun (start : Nat) (before : List Char) (c : Char) :
    extend (begun start before) (start + Text.size before) c = begun start (before ++ [c]) := by
  cases before with
  | nil => rfl
  | cons first rest => simp [begun, extend]

theorem splits_close {start : Nat} {before rest : List Char} {tokens : List Token}
    (hbefore : before.foldlM Nesting.next? (.plain 0) = some (.plain 0)) (hends : EndsToken rest)
    (h : Splits (start + Text.size before) rest tokens) :
    Splits start (before ++ rest) (close (begun start before) ++ tokens) := by
  cases before with
  | nil => exact h
  | cons first before =>
      have htoken : IsToken (first :: before) := ⟨List.cons_ne_nil _ _, hbefore⟩
      simpa [begun, close] using Splits.token htoken hends h

theorem splits_finish {start depth column : Nat} {before rest : List Char} {tokens : List Token}
    (hbefore : before.foldlM Nesting.next? (.plain 0) = some (.plain depth)) (hends : EndsToken rest)
    (hrest : Splits (start + Text.size before) rest [])
    (h : finish depth column (begun start before) = .ok tokens) : Splits start (before ++ rest) tokens := by
  unfold finish at h
  split at h
  · cases h
  · next hdepth =>
    obtain rfl : depth = 0 := by omega
    cases h
    simpa using splits_close hbefore hends hrest

theorem ends_of_next?_eq_none {mode : Mode} {depth : Nat} {c : Char}
    (h : (nesting mode depth).next? c = none) :
    mode = .plain ∧ (c = '#' ∨ depth = 0 ∧ (c = ')' ∨ IsSeparator c)) := by
  cases mode with
  | escaped quote => cases h
  | quoted quote => cases h
  | plain =>
      refine ⟨rfl, ?_⟩
      refine Decidable.byContradiction fun hplain => ?_
      simp only [nesting, Nesting.next?, if_neg hplain] at h
      split at h
      · cases h
      · split at h
        · cases h
        · split at h <;> cases h

theorem splits_of_scan {mode : Mode} {depth start : Nat} {before line : List Char} {tokens : List Token}
    (hbefore : before.foldlM Nesting.next? (.plain 0) = some (nesting mode depth))
    (h : scan mode depth (start + Text.size before) (begun start before) line = .ok tokens) :
    Splits start (before ++ line) tokens := by
  -- The characters of `before` have led where the scanner is, so they are the beginning of a token.
  induction line generalizing mode depth start before tokens with
  | nil =>
      cases mode with
      | plain => exact splits_finish hbefore (fun _ hc => by cases hc) (.nil _) h
      | quoted quote => cases h
      | escaped quote => cases h
  | cons c rest ih =>
      cases hnext : (nesting mode depth).next? c with
      | some next =>
          obtain ⟨mode', depth', rfl, hscan⟩ :=
            scan_next hnext (start + Text.size before) (begun start before) rest
          rw [hscan, extend_begun] at h
          have hafter : (before ++ [c]).foldlM Nesting.next? (.plain 0) = some (nesting mode' depth') := by
            simp [List.foldlM_append, hbefore, hnext]
          rw [← List.singleton_append, ← List.append_assoc]
          exact ih hafter (by simpa [Nat.add_assoc] using h)
      | none =>
          obtain ⟨rfl, rfl | ⟨rfl, rfl | hc⟩⟩ := ends_of_next?_eq_none hnext
          · rw [scan_comment] at h
            exact splits_finish hbefore (fun _ hc => by cases hc; exact .inr rfl) (.comment _ rest) h
          · simp [scan] at h
          · rw [scan_separator hc] at h
            obtain ⟨later, hscan, hpure⟩ := Except.bind_eq_ok.mp h
            cases hpure
            have hlater : Splits (start + Text.size before + c.utf8Size) rest later :=
              @ih .plain 0 _ [] later rfl hscan
            exact splits_close hbefore (fun _ hmem => by cases hmem; exact .inl hc) (.separator hc hlater)

end Token

/-- The tokens of a line are those that it is made of. -/
theorem tokenize_eq_ok {line : List Char} {tokens : List Token} :
    tokenize line = .ok tokens ↔ Splits 1 line tokens :=
  ⟨fun h => @Token.splits_of_scan .plain 0 1 [] line tokens rfl h, fun h => h.scan⟩

/-! ## Columns -/

/-- A column at which a line can be cut whose first character stands at column `start`. -/
def IsCut (start : Nat) (line : List Char) (column : Nat) : Prop :=
  ∃ front back, line = front ++ back ∧ column = start + Text.size front

theorem IsCut.here (start : Nat) (line : List Char) : IsCut start line start :=
  ⟨[], line, rfl, rfl⟩

theorem IsCut.cons {start column : Nat} {c : Char} {rest : List Char}
    (h : IsCut (start + c.utf8Size) rest column) : IsCut start (c :: rest) column := by
  obtain ⟨front, back, rfl, rfl⟩ := h
  exact ⟨c :: front, back, rfl, by simp [Nat.add_assoc]⟩

theorem IsCut.isBoundary {column : Nat} {line : List Char} (h : IsCut 1 line column) :
    1 ≤ column ∧ Text.IsBoundary line (column - 1) := by
  obtain ⟨front, back, rfl, rfl⟩ := h
  exact ⟨Nat.le_add_right 1 _, front, back, rfl, by omega⟩

namespace Token

def Mode.quote? : Mode → Option Nat
  | .plain => none
  | .quoted quote => some quote
  | .escaped quote => some quote

theorem finish_error {depth column : Nat} {open? : Option Partial} {fault : Fault}
    (h : finish depth column open? = .error fault) : fault.column = column := by
  unfold finish at h
  split at h
  · cases h
    rfl
  · cases h

/-- The scanner points at the quote it is behind, or at a place of the line in front of it. -/
theorem scan_error {mode : Mode} {depth column : Nat} {open? : Option Partial} {line : List Char}
    {fault : Fault} (h : scan mode depth column open? line = .error fault) :
    mode.quote? = some fault.column ∨ IsCut column line fault.column := by
  induction line generalizing mode depth column open? with
  | nil =>
      cases mode with
      | plain => exact .inr (finish_error h ▸ .here _ [])
      | quoted quote => cases h; exact .inl rfl
      | escaped quote => cases h; exact .inl rfl
  | cons c rest ih =>
      cases mode with
      | escaped quote =>
          rcases ih h with hquote | hcut
          · exact .inl hquote
          · exact .inr hcut.cons
      | quoted quote =>
          rcases ih h with hquote | hcut
          · left
            split at hquote
            · exact hquote
            · split at hquote
              · cases hquote
              · exact hquote
          · exact .inr hcut.cons
      | plain =>
          right
          by_cases hnext : c = '#' ∨ depth = 0 ∧ (c = ')' ∨ IsSeparator c)
          · rcases hnext with rfl | ⟨rfl, rfl | hc⟩
            · rw [scan_comment] at h
              exact finish_error h ▸ .here _ _
            · simp only [scan, Char.reduceEq, ↓reduceIte, and_self] at h
              cases h
              exact .here _ _
            · rw [scan_separator hc] at h
              rcases Except.bind_eq_error.mp h with hrest | ⟨_, -, hpure⟩
              · rcases ih hrest with hquote | hcut
                · cases hquote
                · exact hcut.cons
              · cases hpure
          · rw [scan_plain_next hnext] at h
            rcases ih h with hquote | hcut
            · split at hquote
              · cases hquote
                exact .here _ _
              · cases hquote
            · exact hcut.cons

end Token

theorem tokenize_error {line : List Char} {fault : Fault} (h : tokenize line = .error fault) :
    IsCut 1 line fault.column := by
  rcases Token.scan_error h with hquote | hcut
  · cases hquote
  · exact hcut

/-! ## Where the tokens stand -/

/-- A piece of a line, at the column of the token. -/
def Token.StandsIn (token : Token) (start : Nat) (line : List Char) : Prop :=
  ∃ front back, line = front ++ token.text.toList ++ back ∧ token.column = start + Text.size front

namespace IsToken

theorem first {c : Char} {text : List Char} (h : IsToken (c :: text)) : ¬ (IsSeparator c ∨ c = '#') := by
  intro hc
  obtain ⟨next, hnext, -⟩ := Option.bind_eq_some_iff.mp h.2
  have hstop : c = '#' ∨ 0 = 0 ∧ (c = ')' ∨ IsSeparator c) := by
    rcases hc with hc | hc
    · exact .inr ⟨rfl, .inr hc⟩
    · exact .inl hc
  rw [Nesting.next?, if_pos hstop] at hnext
  cases hnext

end IsToken

namespace Splits

variable {start : Nat} {line : List Char} {tokens : List Token}

theorem isToken (h : Splits start line tokens) : ∀ token ∈ tokens, IsToken token.text.toList := by
  induction h with
  | nil | comment => simp
  | separator _ _ ih => exact ih
  | token htext _ _ ih => simpa using ⟨htext, ih⟩

/-- The first token begins with the first character of the line, unless that stands between tokens. -/
theorem of_cons {c : Char} {rest : List Char} (hc : ¬ (IsSeparator c ∨ c = '#'))
    (h : Splits start (c :: rest) tokens) :
    ∃ text later, tokens = ⟨.ofList (c :: text), start⟩ :: later := by
  generalize hline : c :: rest = line at h
  cases h with
  | nil => cases hline
  | comment => cases hline; exact absurd (.inr rfl) hc
  | separator hseparator => cases hline; exact absurd (.inl hseparator) hc
  | @token _ text _ later htext =>
      cases text with
      | nil => exact absurd rfl htext.1
      | cons first text =>
          cases hline
          exact ⟨text, later, rfl⟩

theorem standsIn (h : Splits start line tokens) : ∀ token ∈ tokens, token.StandsIn start line := by
  induction h with
  | nil | comment => simp
  | @separator column c rest tokens _ _ ih =>
      intro token htoken
      obtain ⟨front, back, rfl, hcolumn⟩ := ih token htoken
      exact ⟨c :: front, back, rfl, by simp [hcolumn, Nat.add_assoc]⟩
  | @token column text rest tokens _ _ _ ih =>
      intro token htoken
      rcases List.mem_cons.mp htoken with rfl | htoken
      · exact ⟨[], rest, by simp, rfl⟩
      · obtain ⟨front, back, rfl, hcolumn⟩ := ih token htoken
        exact ⟨text ++ front, back, by simp, by simp [hcolumn, Nat.add_assoc]⟩

theorem lt_column (h : Splits start line tokens) (hends : EndsToken line) :
    ∀ token ∈ tokens, start < token.column := by
  cases h with
  | nil | comment => simp
  | @separator _ c rest _ _ hrest =>
      intro token htoken
      obtain ⟨front, -, -, hcolumn⟩ := hrest.standsIn token htoken
      have hpos := c.utf8Size_pos
      omega
  | @token _ text rest tokens htext _ _ =>
      cases text with
      | nil => exact absurd rfl htext.1
      | cons c text => exact absurd (hends c rfl) htext.first

/-- The tokens come one behind the other, with something between each two. -/
theorem ordered (h : Splits start line tokens) :
    tokens.Pairwise fun a b => a.column + Text.size a.text.toList < b.column := by
  induction h with
  | nil | comment => exact .nil
  | separator _ _ ih => exact ih
  | token _ hends hrest ih =>
      refine .cons (fun b hb => ?_) ih
      simpa using hrest.lt_column hends b hb

end Splits

end CallScript.Assembly
