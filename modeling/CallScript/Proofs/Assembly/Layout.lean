import CallScript.Proofs.Assembly.Location
import CallScript.Proofs.Assembly.Tokens

/-!
# Layout

The assembler reads the texts of tokens and nothing else: columns only show up in its errors. So a
source can be laid out anew, with single blanks between the tokens and no comments, and still means the
same.
-/

namespace CallScript.Assembly

/-! ## Columns do not matter -/

/-- The token without its column. -/
def Token.unplaced (token : Token) : Token :=
  { token with column := 0 }

theorem mapError_located {α : Type} (column : Nat) (result : Except Reason α) :
    (located column result).mapError Fault.reason = result := by
  cases result <;> rfl

theorem parseOperands_unplaced (read : Operands) (tokens : List Token) :
    (parseOperands read (tokens.map Token.unplaced)).mapError Fault.reason =
      (parseOperands read tokens).mapError Fault.reason := by
  fun_induction parseOperands read tokens with
  | case1 read => rfl
  | case2 read token rest inline harrow houtput =>
      rw [List.map_cons, parseOperands.eq_def]
      simp only [Token.unplaced, harrow, houtput, ↓reduceIte]
      rfl
  | case3 read token inline harrow houtput hinline =>
      rw [List.map_cons, parseOperands.eq_def]
      simp only [Token.unplaced, harrow, houtput, hinline, ↓reduceIte, List.map_nil]
      rfl
  | case4 read token inline harrow houtput hinline target rest ih =>
      rw [List.map_cons, parseOperands.eq_def]
      simp only [Token.unplaced, harrow, houtput, hinline, Bool.false_eq_true, ↓reduceIte, List.map_cons,
        Except.mapError_bind, mapError_located]
      exact bind_congr ih
  | case5 read token rest inline harrow houtput hinline ih =>
      rw [List.map_cons, parseOperands.eq_def]
      simp only [Token.unplaced, harrow, houtput, hinline, Bool.false_eq_true, ↓reduceIte, Except.mapError_bind,
        mapError_located]
      exact bind_congr ih
  | case6 read token rest harrow name hplus flag hflag ih =>
      rw [List.map_cons, parseOperands.eq_def]
      simp only [Token.unplaced, harrow, hplus, hflag]
      exact ih
  | case7 read token rest harrow name hplus hflag =>
      rw [List.map_cons, parseOperands.eq_def]
      simp only [Token.unplaced, harrow, hplus, hflag]
      rfl
  | case8 read token rest harrow hplus houtput =>
      rw [List.map_cons, parseOperands.eq_def]
      simp only [Token.unplaced, harrow, hplus, houtput, ↓reduceIte]
      rfl
  | case9 read token rest harrow hplus houtput hlength =>
      rw [List.map_cons, parseOperands.eq_def]
      simp only [Token.unplaced, harrow, hplus, houtput, hlength, ↓reduceIte]
      rfl
  | case10 read token rest harrow hplus houtput hlength ih =>
      rw [List.map_cons, parseOperands.eq_def]
      simp only [Token.unplaced, harrow, hplus, houtput, hlength, Bool.false_eq_true, ↓reduceIte,
        Except.mapError_bind, mapError_located]
      exact bind_congr ih

theorem parseCall_unplaced (aliases : Aliases) (kind : CallKind) (column : Nat) (tokens : List Token) :
    (parseCall aliases kind 0 (tokens.map Token.unplaced)).mapError Fault.reason =
      (parseCall aliases kind column tokens).mapError Fault.reason := by
  match tokens with
  | [] => rfl
  | [first] =>
      simp only [List.map_cons, List.map_nil, parseCall, Token.unplaced, Except.mapError_bind, mapError_located]
      rfl
  | first :: second :: rest =>
      simp only [List.map_cons, parseCall, Token.unplaced, Except.mapError_bind, mapError_located]
      refine bind_congr fun target => bind_congr fun selector => ?_
      rw [parseOperands_unplaced]
      refine bind_congr fun operands => ?_
      split <;> rfl

namespace Draft

variable (d : Draft)

theorem addSlot_unplaced (column : Nat) (tokens : List Token) :
    (d.addSlot 0 (tokens.map Token.unplaced)).mapError Fault.reason =
      (d.addSlot column tokens).mapError Fault.reason := by
  match tokens with
  | [] | [_] | _ :: _ :: _ :: _ => rfl
  | [kind, literal] =>
      simp only [List.map_cons, List.map_nil, addSlot, Token.unplaced]
      split
      · rfl
      · simp only [Except.mapError_bind, mapError_located]

theorem addAlias_unplaced (column : Nat) (tokens : List Token) :
    (d.addAlias 0 (tokens.map Token.unplaced)).mapError Fault.reason =
      (d.addAlias column tokens).mapError Fault.reason := by
  match tokens with
  | [] | [_] | _ :: _ :: _ :: _ => rfl
  | [name, address] =>
      simp only [List.map_cons, List.map_nil, addAlias, Token.unplaced, Except.mapError_bind, mapError_located]
      refine bind_congr fun target => ?_
      split <;> rfl

theorem addCall_unplaced (mnemonic : String) (column : Nat) (tokens : List Token) :
    (d.addCall mnemonic 0 (tokens.map Token.unplaced)).mapError Fault.reason =
      (d.addCall mnemonic column tokens).mapError Fault.reason := by
  unfold addCall
  split
  · rfl
  · next kind _ =>
    rw [Except.mapError_bind, Except.mapError_bind, parseCall_unplaced d.aliases kind column tokens]

theorem addTokens_unplaced (tokens : List Token) :
    (d.addTokens (tokens.map Token.unplaced)).mapError Fault.reason =
      (d.addTokens tokens).mapError Fault.reason := by
  cases tokens with
  | nil => rfl
  | cons first rest =>
      simp only [List.map_cons, addTokens]
      have htext : first.unplaced.text = first.text := rfl
      rw [htext]
      split
      · exact d.addSlot_unplaced first.column rest
      · split
        · exact d.addAlias_unplaced first.column rest
        · exact d.addCall_unplaced first.text first.column rest

/-- Only the texts of tokens matter, up to the columns of faults. -/
theorem addTokens_congr {tokens tokens' : List Token} (h : tokens.map (·.text) = tokens'.map (·.text)) :
    (d.addTokens tokens).mapError Fault.reason = (d.addTokens tokens').mapError Fault.reason := by
  have hunplaced : tokens.map Token.unplaced = tokens'.map Token.unplaced := by
    have hmap := congrArg (List.map fun text => (⟨text, 0⟩ : Token)) h
    rwa [List.map_map, List.map_map] at hmap
  rw [← d.addTokens_unplaced tokens, ← d.addTokens_unplaced tokens', hunplaced]

end Draft

/-! ## Lines laid out anew -/

/-- The tokens of a line with single blanks between them. -/
def relaidLine (line : List Char) : List Char :=
  match tokenize line with
  | .ok tokens => wordsLine (tokens.map (·.text))
  | .error _ => line

/-- The source with every line laid out anew. -/
def relaid (source : String) : String :=
  Text.mapLines relaidLine source

theorem relaidLine_of_tokenize {line : List Char} {tokens : List Token} (h : tokenize line = .ok tokens) :
    relaidLine line = wordsLine (tokens.map (·.text)) := by
  rw [relaidLine, h]

theorem tokenize_relaidLine {line : List Char} {tokens : List Token} (h : tokenize line = .ok tokens) :
    ∃ tokens', tokenize (relaidLine line) = .ok tokens' ∧ tokens'.map (·.text) = tokens.map (·.text) := by
  rw [relaidLine_of_tokenize h]
  refine tokenize_tokensLine fun word hword => ?_
  obtain ⟨token, htoken, rfl⟩ := List.mem_map.mp hword
  exact (tokenize_eq_ok.mp h).isToken token htoken

theorem isLine_wordsLine {words : List String} (h : ∀ word ∈ words, IsToken word.toList ∧ '\n' ∉ word.toList) :
    Text.IsLine (wordsLine words) := by
  match words with
  | [] => exact ⟨by simp [wordsLine], by simp [wordsLine]⟩
  | [word] =>
      obtain ⟨htoken, hfeed⟩ := h word (List.mem_cons_self ..)
      rw [wordsLine_singleton]
      refine ⟨hfeed, fun hlast => ?_⟩
      exact absurd (htoken.not_isBlank_getLast hlast) (by decide)
  | word :: next :: rest =>
      obtain ⟨⟨-, hfeed⟩, hrest⟩ := List.forall_mem_cons.mp h
      obtain ⟨hfeeds, hlast⟩ := isLine_wordsLine hrest
      rw [wordsLine_cons_cons]
      refine ⟨by simpa using ⟨hfeed, hfeeds⟩, fun hreturn => ?_⟩
      rw [List.getLast?_append, List.getLast?_cons, Option.some_or, Option.some.injEq] at hreturn
      cases hwords : (wordsLine (next :: rest)).getLast? with
      | none =>
          rw [hwords] at hreturn
          exact absurd hreturn (by decide)
      | some c =>
          rw [hwords] at hreturn hlast
          exact hlast (congrArg some hreturn)

theorem isLine_relaidLine {line : List Char} {tokens : List Token} (h : tokenize line = .ok tokens)
    (hfeed : '\n' ∉ line) : Text.IsLine (relaidLine line) := by
  rw [relaidLine_of_tokenize h]
  refine isLine_wordsLine fun word hword => ?_
  obtain ⟨token, htoken, rfl⟩ := List.mem_map.mp hword
  refine ⟨(tokenize_eq_ok.mp h).isToken token htoken, fun hmem => ?_⟩
  obtain ⟨front, back, rfl, -⟩ := (tokenize_eq_ok.mp h).standsIn token htoken
  simp [hmem] at hfeed

namespace Draft

theorem addLine_relaidLine (d : Draft) {line : List Char} (h : (tokenize line).isOk) :
    (d.addLine (relaidLine line)).mapError Fault.reason = (d.addLine line).mapError Fault.reason := by
  cases htokens : tokenize line with
  | error fault =>
      rw [htokens] at h
      cases h
  | ok tokens =>
      obtain ⟨tokens', htokens', htexts⟩ := tokenize_relaidLine htokens
      rw [addLine, addLine, htokens, htokens']
      exact d.addTokens_congr htexts

theorem addLines_relaidLine (d : Draft) (number : Nat) {ls : List (List Char)}
    (h : ∀ line ∈ ls, (tokenize line).isOk) :
    (d.addLines number (ls.map relaidLine)).mapError (fun e => (e.line, e.reason)) =
      (d.addLines number ls).mapError fun e => (e.line, e.reason) := by
  induction ls generalizing d number with
  | nil => rfl
  | cons line ls ih =>
      obtain ⟨hline, hls⟩ := List.forall_mem_cons.mp h
      have hsame := d.addLine_relaidLine hline
      rw [List.map_cons, addLines, addLines]
      cases hold : d.addLine line with
      | ok d' =>
          cases hnew : d.addLine (relaidLine line) with
          | ok found =>
              rw [hold, hnew] at hsame
              cases hsame
              exact ih d' (number + 1) hls
          | error fault =>
              rw [hold, hnew] at hsame
              cases hsame
      | error fault =>
          cases hnew : d.addLine (relaidLine line) with
          | ok found =>
              rw [hold, hnew] at hsame
              cases hsame
          | error found =>
              rw [hold, hnew] at hsame
              have hreason : found.reason = fault.reason := Except.error.inj hsame
              simp only [Except.mapError, hreason]

theorem addLines_blanks (d : Draft) (number blanks : Nat) :
    d.addLines number (List.replicate blanks []) = .ok d := by
  induction blanks generalizing number with
  | zero => rfl
  | succ blanks ih => exact ih (number + 1)

end Draft

theorem lines_relaid {source : String} (h : ∀ line ∈ Text.lines source, (tokenize line).isOk) :
    ∃ blanks ≤ 1, Text.lines (relaid source) ++ List.replicate blanks [] =
      (Text.lines source).map relaidLine := by
  refine Text.lines_mapLines fun line hline => ?_
  have hfeed : '\n' ∉ line := Text.feed_not_mem_linesFrom (by simp) line hline
  cases htokens : tokenize line with
  | ok tokens => exact isLine_relaidLine htokens hfeed
  | error fault =>
      have hok := h line hline
      rw [htokens] at hok
      cases hok

theorem assemble_relaid {source : String} (h : ∀ line ∈ Text.lines source, (tokenize line).isOk)
    (aliases : Aliases) :
    (assemble aliases (relaid source)).mapError (fun e => (e.line, e.reason)) =
      (assemble aliases source).mapError fun e => (e.line, e.reason) := by
  obtain ⟨blanks, -, hlines⟩ := lines_relaid h
  have hdraft := Draft.addLines_relaidLine { aliases } 1 h
  -- Blank lines at the end change nothing, so it does not matter whether they are there.
  simp only [← hlines, Draft.addLines_append, Draft.addLines_blanks] at hdraft
  rw [assemble, assemble, Except.mapError_bind, Except.mapError_bind, ← hdraft, Except.mapError_bind]
  cases Draft.addLines { aliases } 1 (Text.lines (relaid source)) <;> rfl

/-- Layout does not matter. In a source whose lines can all be split into tokens, let the tokens of each
line take its place, with single blanks between them. The lines then have the same tokens (a last line that
becomes empty and has no line end is no line any more), and the source assembles to the same script or fails
in the same line for the same reason. The tokens of a line are pieces of it that are not empty, begin at
their columns and come one behind the other. -/
theorem layout_irrelevant :
    (∀ source : String, (∀ line ∈ Text.lines source, (tokenize line).isOk) →
      (∃ blanks ≤ 1, Text.lines (relaid source) ++ List.replicate blanks [] =
        (Text.lines source).map relaidLine) ∧
      (∀ line ∈ Text.lines source, ∃ tokens tokens', tokenize line = .ok tokens ∧
        relaidLine line = (" ".intercalate (tokens.map (·.text))).toList ∧
        tokenize (relaidLine line) = .ok tokens' ∧ tokens'.map (·.text) = tokens.map (·.text)) ∧
      ∀ aliases : Aliases,
        (assemble aliases (relaid source)).mapError (fun e => (e.line, e.reason)) =
          (assemble aliases source).mapError fun e => (e.line, e.reason)) ∧
    ∀ (line : List Char) (tokens : List Token), tokenize line = .ok tokens →
      (∀ token ∈ tokens, token.text ≠ "" ∧ ∃ front back, line = front ++ token.text.toList ++ back ∧
        token.column = 1 + Text.size front) ∧
      tokens.Pairwise fun a b => a.column + Text.size a.text.toList < b.column := by
  refine ⟨fun source h => ⟨lines_relaid h, fun line hline => ?_, assemble_relaid h⟩, fun line tokens h => ?_⟩
  · cases htokens : tokenize line with
    | ok tokens =>
        obtain ⟨tokens', htokens', htexts⟩ := tokenize_relaidLine htokens
        exact ⟨tokens, tokens', rfl, relaidLine_of_tokenize htokens, htokens', htexts⟩
    | error fault =>
        have hok := h line hline
        rw [htokens] at hok
        cases hok
  · have hsplits := tokenize_eq_ok.mp h
    refine ⟨fun token htoken => ⟨?_, hsplits.standsIn token htoken⟩, hsplits.ordered⟩
    intro hempty
    exact (hsplits.isToken token htoken).1 (by rw [hempty]; rfl)

/-- A comment, a quoted `#`, a blank line, and commas between operands and inside parentheses: both sources
assemble to the same call. -/
theorem layout_irrelevant_call :
    let source := "  slot\tstr \"é # b, \\\"c\" # note\r\n\n call @vault f(uint256, bytes) s0,d1 , ->d2,+tuple #"
    let plain := "slot str \"é # b, \\\"c\"\r\n\ncall @vault f(uint256, bytes) s0 d1 ->d2 +tuple"
    let vault : Aliases := SortedMap.empty.insert "vault" (.ofNat 20 7)
    let call := Command.make .call (.ofSignature "f(uint256,bytes)") (.ofNat 20 7) [.static 0, .dynamic 1]
      (.dynamic 2) Flag.tuple.bit
    let script : Script := ⟨[call.toRecord], [Bytes.ofText "é # b, \"c"]⟩
    (∀ line ∈ Text.lines source, (tokenize line).isOk) ∧ relaid source = plain ∧
      (∀ aliases : Aliases, (assemble aliases plain).mapError (fun e => (e.line, e.reason)) =
        (assemble aliases source).mapError fun e => (e.line, e.reason)) ∧
      assemble vault source = .ok script ∧ assemble vault plain = .ok script := by
  intro source plain vault call script
  have hlines : ∀ line ∈ Text.lines source, (tokenize line).isOk := by decide +kernel
  have hplain : relaid source = plain := by decide +kernel
  have hsource : assemble vault source = .ok script := by decide +kernel
  obtain ⟨-, -, hsame⟩ := layout_irrelevant.1 source hlines
  rw [hplain] at hsame
  refine ⟨hlines, hplain, hsame, hsource, ?_⟩
  have hrelaid := hsame vault
  rw [hsource] at hrelaid
  cases hresult : assemble vault plain with
  | ok found =>
      rw [hresult] at hrelaid
      exact congrArg Except.ok (Except.ok.inj hrelaid)
  | error e =>
      rw [hresult] at hrelaid
      cases hrelaid

end CallScript.Assembly
