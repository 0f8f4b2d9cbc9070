import CallScript.Assembly.Assemble
import CallScript.Assembly.Diagnostic
import CallScript.Proofs.Assembly.Scanning
import Mathlib.Control.Monad.Basic

/-!
# Where errors point

An error names the first line that cannot be added to what the lines before it say, and a place in that
line. Nothing behind that line has been looked at.
-/

namespace CallScript.Assembly

/-! ## Columns of faults -/

/-- A place in one of the tokens. -/
def PointsInto (tokens : List Token) (column : Nat) : Prop :=
  ∃ token ∈ tokens, IsCut token.column token.text.toList column

theorem PointsInto.head (token : Token) (rest : List Token) : PointsInto (token :: rest) token.column :=
  ⟨token, List.mem_cons_self .., .here _ _⟩

theorem PointsInto.tail {tokens : List Token} {column : Nat} (h : PointsInto tokens column) (token : Token) :
    PointsInto (token :: tokens) column := by
  obtain ⟨found, hmem, hcut⟩ := h
  exact ⟨found, List.mem_cons_of_mem _ hmem, hcut⟩

theorem PointsInto.isCut {line : List Char} {tokens : List Token} {column : Nat} (h : PointsInto tokens column)
    (hline : tokenize line = .ok tokens) : IsCut 1 line column := by
  obtain ⟨token, htoken, front, back, htext, rfl⟩ := h
  obtain ⟨before, behind, rfl, hcolumn⟩ := (tokenize_eq_ok.mp hline).standsIn token htoken
  refine ⟨before ++ front, back ++ behind, by simp [htext], ?_⟩
  rw [hcolumn, Text.size_append, Nat.add_assoc]

variable {fault : Fault}

theorem located_error {α : Type} {column : Nat} {result : Except Reason α}
    (h : located column result = .error fault) : fault.column = column := by
  cases result with
  | ok a => cases h
  | error reason => cases h; rfl

theorem isCut_afterArrow {token : Token} {inline : List Char} (h : afterArrow? token.text = some inline) :
    IsCut token.column token.text.toList (token.column + 2) := by
  unfold afterArrow? at h
  split at h
  · next rest htext => exact ⟨['-', '>'], rest, htext, rfl⟩
  · cases h

theorem parseOperands_error {read : Operands} {tokens : List Token}
    (h : parseOperands read tokens = .error fault) : PointsInto tokens fault.column := by
  fun_induction parseOperands read tokens with
  | case1 read => cases h
  | case2 | case3 | case7 | case8 | case9 => cases h; exact .head _ _
  | case4 read token inline _ _ _ target rest ih =>
      rcases Except.bind_eq_error.mp h with houtput | ⟨output, -, hrest⟩
      · exact located_error houtput ▸ (PointsInto.head target rest).tail token
      · exact ((ih output hrest).tail target).tail token
  | case5 read token rest inline harrow _ _ ih =>
      rcases Except.bind_eq_error.mp h with houtput | ⟨output, -, hrest⟩
      · exact ⟨token, List.mem_cons_self .., located_error houtput ▸ isCut_afterArrow harrow⟩
      · exact (ih output hrest).tail token
  | case6 read token rest _ name _ flag _ ih => exact (ih h).tail token
  | case10 read token rest _ _ _ _ ih =>
      rcases Except.bind_eq_error.mp h with harg | ⟨arg, -, hrest⟩
      · exact located_error harg ▸ .head token rest
      · exact (ih arg hrest).tail token

theorem parseCall_error {aliases : Aliases} {kind : CallKind} {column : Nat} {tokens : List Token}
    (h : parseCall aliases kind column tokens = .error fault) :
    fault.column = column ∨ PointsInto tokens fault.column := by
  match tokens with
  | [] => cases h; exact .inl rfl
  | first :: rest =>
      rcases Except.bind_eq_error.mp h with htarget | ⟨target, -, h⟩
      · exact .inr (located_error htarget ▸ .head first rest)
      · match rest with
        | [] => cases h; exact .inr (.head first [])
        | second :: rest =>
            rcases Except.bind_eq_error.mp h with hselector | ⟨selector, -, h⟩
            · exact .inr (located_error hselector ▸ (PointsInto.head second rest).tail first)
            · rcases Except.bind_eq_error.mp h with hoperands | ⟨operands, -, h⟩
              · exact .inr (((parseOperands_error hoperands).tail second).tail first)
              · split at h
                · cases h
                  exact .inl rfl
                · cases h

namespace Draft

variable {d : Draft}

theorem addSlot_error {column : Nat} {tokens : List Token} (h : d.addSlot column tokens = .error fault) :
    fault.column = column ∨ PointsInto tokens fault.column := by
  unfold addSlot at h
  split at h
  · next kind literal =>
    split at h
    · cases h
      exact .inl rfl
    · rcases Except.bind_eq_error.mp h with hvalue | ⟨value, -, h⟩
      · exact .inr (located_error hvalue ▸ (PointsInto.head literal []).tail kind)
      · cases h
  · cases h
    exact .inl rfl

theorem addAlias_error {column : Nat} {tokens : List Token} (h : d.addAlias column tokens = .error fault) :
    fault.column = column ∨ PointsInto tokens fault.column := by
  unfold addAlias at h
  split at h
  · next name address =>
    rcases Except.bind_eq_error.mp h with htarget | ⟨target, -, h⟩
    · exact .inr (located_error htarget ▸ (PointsInto.head address []).tail name)
    · split at h
      · cases h
      · cases h
        exact .inr (.head name _)
  · cases h
    exact .inl rfl

theorem addCall_error {mnemonic : String} {column : Nat} {tokens : List Token}
    (h : d.addCall mnemonic column tokens = .error fault) :
    fault.column = column ∨ PointsInto tokens fault.column := by
  unfold addCall at h
  split at h
  · cases h
    exact .inl rfl
  · rcases Except.bind_eq_error.mp h with hcall | ⟨command, -, h⟩
    · exact parseCall_error hcall
    · cases h

theorem addTokens_error {tokens : List Token} (h : d.addTokens tokens = .error fault) :
    PointsInto tokens fault.column := by
  cases tokens with
  | nil => cases h
  | cons first rest =>
      have hpoints : fault.column = first.column ∨ PointsInto rest fault.column := by
        rw [addTokens] at h
        split at h
        · exact addSlot_error h
        · split at h
          · exact addAlias_error h
          · exact addCall_error h
      rcases hpoints with hfirst | hrest
      · exact hfirst ▸ .head first rest
      · exact hrest.tail first

/-- A fault of a line is a place in it. -/
theorem addLine_error {line : List Char} (h : d.addLine line = .error fault) : IsCut 1 line fault.column := by
  rcases Except.bind_eq_error.mp h with htokens | ⟨tokens, htokens, h⟩
  · exact tokenize_error htokens
  · exact (addTokens_error h).isCut htokens

/-! ## Lines with faults -/

theorem addLines_append (d : Draft) (number : Nat) (front back : List (List Char)) :
    d.addLines number (front ++ back) =
      d.addLines number front >>= fun d' => d'.addLines (number + front.length) back := by
  induction front generalizing d number with
  | nil => rfl
  | cons line front ih =>
      rw [List.cons_append, addLines, addLines]
      cases d.addLine line with
      | error fault => rfl
      | ok d' => simpa [Nat.add_assoc, Nat.add_comm 1] using ih d' (number + 1)

theorem addLines_of_error {number : Nat} {front back : List (List Char)} {line : List Char} {d' : Draft}
    (hfront : d.addLines number front = .ok d') (hline : d'.addLine line = .error fault) :
    d.addLines number (front ++ line :: back) =
      .error ⟨front.length + number, fault.column, fault.reason⟩ := by
  rw [addLines_append, hfront, Except.ok_bind, addLines, hline, Nat.add_comm]

/-- What fails is the first line that cannot be added to what the lines before it say. -/
theorem addLines_error {number : Nat} {ls : List (List Char)} {e : Error}
    (h : d.addLines number ls = .error e) :
    ∃ front line back d' fault, ls = front ++ line :: back ∧ d.addLines number front = .ok d' ∧
      d'.addLine line = .error fault ∧ e = ⟨front.length + number, fault.column, fault.reason⟩ := by
  induction ls generalizing d number with
  | nil => cases h
  | cons line ls ih =>
      rw [addLines] at h
      cases hline : d.addLine line with
      | error fault =>
          rw [hline] at h
          cases h
          exact ⟨[], line, ls, d, fault, rfl, rfl, hline, by simp⟩
      | ok d' =>
          rw [hline] at h
          obtain ⟨front, bad, back, d'', fault, rfl, hfront, hbad, rfl⟩ := ih h
          refine ⟨line :: front, bad, back, d'', fault, rfl, ?_, hbad, ?_⟩
          · rw [addLines, hline]
            exact hfront
          · simp [Nat.add_assoc, Nat.add_comm 1]

end Draft

theorem assemble_of_addLines {aliases : Aliases} {source : String} {d : Draft}
    (h : Draft.addLines { aliases } 1 (Text.lines source) = .ok d) : assemble aliases source = .ok d.script := by
  rw [assemble, h]
  rfl

theorem assemble_eq_error {aliases : Aliases} {source : String} {e : Error} :
    assemble aliases source = .error e ↔ Draft.addLines { aliases } 1 (Text.lines source) = .error e := by
  rw [assemble]
  cases Draft.addLines { aliases } 1 (Text.lines source) <;> simp

theorem assemble_error {aliases : Aliases} {source : String} {e : Error}
    (h : assemble aliases source = .error e) :
    ∃ front line back d fault, Text.lines source = front ++ line :: back ∧
      Draft.addLines { aliases } 1 front = .ok d ∧ d.addLine line = .error fault ∧
      e = ⟨front.length + 1, fault.column, fault.reason⟩ :=
  Draft.addLines_error (assemble_eq_error.mp h)

/-- An error is found in the first bad line, at a place of that line, and its diagnostic shows the line and
a caret. The source cut in front of that line is assembled, and whatever follows the line, the error
is the same. -/
theorem error_at_first_bad_line {aliases : Aliases} {source : String} {e : Error}
    (h : assemble aliases source = .error e) :
    (∃ line, (Text.lines source)[e.line - 1]? = some line ∧ 1 ≤ e.line ∧ e.line ≤ (Text.lines source).length ∧
      1 ≤ e.column ∧ e.column - 1 ≤ Text.size line ∧ Text.IsBoundary line (e.column - 1) ∧
      ∀ file,
        let caret := String.ofList (List.replicate (e.column - 1) ' ') ++ "^"
        e.diagnostic file source = s!"error: {e.reason.message}\n --> {file}:{e.line}:{e.column}\n" ++
          s!"  |\n{padLeft 4 (toString e.line)} | {String.ofList (trimReturns line)}\n  | {caret}\n") ∧
    (∃ front back script, source = front ++ back ∧ Text.lines front = (Text.lines source).take (e.line - 1) ∧
      Text.lines back = (Text.lines source).drop (e.line - 1) ∧ assemble aliases front = .ok script) ∧
    ∀ source', (Text.lines source').take e.line = (Text.lines source).take e.line →
      assemble aliases source' = .error e := by
  obtain ⟨front, line, back, d, fault, hlines, hfront, hline, rfl⟩ := assemble_error h
  simp only [Nat.add_sub_cancel]
  have hget : (Text.lines source)[front.length]? = some line := by simp [hlines]
  have htake : (Text.lines source).take (front.length + 1) = front ++ [line] := by
    simp [hlines, List.take_append, List.take_of_length_le]
  refine ⟨⟨line, hget, Nat.le_add_left .., by simp [hlines], ?_⟩, ?_, ?_⟩
  · obtain ⟨hcolumn, hboundary⟩ := (Draft.addLine_error hline).isBoundary
    refine ⟨hcolumn, hboundary.le_size, hboundary, fun file => ?_⟩
    simp only [Error.diagnostic, diagnostic, Nat.add_sub_cancel, hget]
  · obtain ⟨text, rest, hsource, htext, hrest⟩ := Text.lines_cut front.length source
    refine ⟨text, rest, d.script, hsource, htext, hrest, assemble_of_addLines ?_⟩
    rw [htext, hlines, List.take_left]
    exact hfront
  · intro source' hsame
    have hlines' : Text.lines source' = front ++ line :: (Text.lines source').drop (front.length + 1) := by
      have hcut := List.take_append_drop (front.length + 1) (Text.lines source')
      rw [hsame, htake, List.append_assoc] at hcut
      exact hcut.symm
    rw [assemble_eq_error, hlines']
    exact Draft.addLines_of_error hfront hline

/-- A bad output behind an alias of two bytes, in front of another bad line. -/
theorem error_at_first_bad_line_output :
    let source := "alias é 0x0000000000000000000000000000000000000007\ncall @é fallback ->q1 # note\nslot"
    let other := "alias é 0x0000000000000000000000000000000000000007\r\ncall @é fallback ->q1 # note"
    let e : Error := ⟨2, 21, .expectedOutput "q1"⟩
    assemble .empty source = .error e ∧ (Text.lines other).take 2 = (Text.lines source).take 2 ∧
      (∃ line, (Text.lines source)[1]? = some line ∧ Text.IsBoundary line 20) ∧
      assemble .empty other = .error e := by
  intro source other e
  have hsource : assemble .empty source = .error e := by decide +kernel
  have hsame : (Text.lines other).take 2 = (Text.lines source).take 2 := by decide +kernel
  obtain ⟨⟨line, hget, -, -, -, -, hboundary, -⟩, -, hothers⟩ := error_at_first_bad_line hsource
  exact ⟨hsource, hsame, ⟨line, hget, hboundary⟩, hothers other hsame⟩

end CallScript.Assembly
