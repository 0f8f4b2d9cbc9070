import CallScript.Assembly.Disassemble
import CallScript.Proofs.Assembly.Canonical
import CallScript.Proofs.Assembly.Tokens
import CallScript.Proofs.Store
import CallScript.Proofs.Text

/-!
# Assembling what was disassembled

Every part of a script is read back from how it is written. So a script is assembled from its own
disassembly exactly if it is canonical.
-/

namespace CallScript

/-! ## Words -/

namespace Assembly

theorem isPlain_of_isDigit {c : Char} (h : Text.isDigit c = true) : IsPlain c := by
  have hbounds : '0'.toNat ≤ c.toNat ∧ c.toNat ≤ '9'.toNat := by
    simpa [Text.isDigit, Char.le_def, UInt32.le_iff_toNat_le] using h
  simp only [Char.reduceToNat] at hbounds
  refine ⟨by simp [Text.isBlank]; omega, ?_, ?_, ?_, ?_, ?_⟩ <;> rintro rfl <;> simp at hbounds

theorem isPlain_digits (b : UInt8) {c : Char} (h : c ∈ Hex.digits b) : IsPlain c := by
  have hdigit : ∀ n : Fin 16, IsPlain (Nat.digitChar n) := by decide
  have hb : b.toNat < 256 := b.toNat_lt
  simp only [Hex.digits, List.mem_cons, List.not_mem_nil, or_false] at h
  rcases h with rfl | rfl
  · exact hdigit ⟨b.toNat / 16, by omega⟩
  · exact hdigit ⟨b.toNat % 16, by omega⟩

theorem isWord_hex (bytes : Bytes) : IsWord (Hex.render bytes) := by
  rw [IsWord, Hex.toList_render]
  refine ⟨List.cons_ne_nil _ _, ?_⟩
  simp only [List.forall_mem_cons, List.mem_flatMap]
  refine ⟨by decide, by decide, ?_⟩
  rintro c ⟨b, -, hc⟩
  exact isPlain_digits b hc

theorem isWord_mnemonic (kind : CallKind) : IsWord kind.mnemonic := by
  cases kind <;> decide

theorem isWord_flag (flag : Flag) : IsWord ("+" ++ flag.name) := by
  cases flag <;> decide

/-- A letter and the digits of a number. -/
def slotText (letter : Char) (n : Nat) : String :=
  String.singleton letter ++ n.repr

theorem toList_slotText (letter : Char) (n : Nat) :
    (slotText letter n).toList = letter :: Nat.toDigits 10 n := by
  simp [slotText]

theorem render_static (slot : UInt8) : (Arg.static slot).render = slotText 's' slot.toNat := rfl

theorem render_dynamic (slot : UInt8) : (Arg.dynamic slot).render = slotText 'd' slot.toNat := rfl

theorem isWord_slotText (letter : Char) (h : IsPlain letter) (n : Nat) : IsWord (slotText letter n) := by
  rw [IsWord, toList_slotText]
  refine ⟨List.cons_ne_nil _ _, List.forall_mem_cons.mpr ⟨h, fun c hc => ?_⟩⟩
  exact isPlain_of_isDigit (Text.isDigit_of_mem_toDigits hc)

theorem isWord_arg (arg : Arg) : IsWord arg.render := by
  cases arg with
  | static slot => exact isWord_slotText 's' (by decide) slot.toNat
  | dynamic slot => exact isWord_slotText 'd' (by decide) slot.toNat
  | state => decide

theorem isWord_output (output : Output) : IsWord output.render := by
  cases output with
  | static slot => exact isWord_arg (.static slot)
  | dynamic slot => exact isWord_arg (.dynamic slot)
  | discard => decide
  | replaceState => decide

theorem isWord_selector (c : Command) : IsWord (renderSelector c) := by
  unfold renderSelector
  split
  · decide
  · exact isWord_hex c.selector.bytes

/-- Every name can stand in a line as it is. -/
def Aliases.Plain (aliases : Aliases) : Prop :=
  ∀ entry ∈ aliases.entries, ∀ c ∈ entry.1.toList, IsPlain c

instance (aliases : Aliases) : Decidable aliases.Plain :=
  @List.decidableBAll _ (fun entry : String × Address => ∀ c ∈ entry.1.toList, IsPlain c)
    (fun entry => List.decidableBAll IsPlain entry.1.toList) aliases.entries

theorem mem_of_nameOf? {aliases : Aliases} {target : Address} {name : String}
    (h : aliases.nameOf? target = some name) : (name, target) ∈ aliases.entries := by
  obtain ⟨⟨name', target'⟩, hfind, rfl⟩ := Option.map_eq_some_iff.mp h
  have htarget : target' = target := by simpa using List.find?_some hfind
  exact htarget ▸ List.mem_of_find?_eq_some hfind

theorem toList_alias (name : String) : s!"@{name}".toList = '@' :: name.toList := by
  rw [String.toList_append]
  rfl

theorem isWord_target {aliases : Aliases} (h : aliases.Plain) (target : Address) :
    IsWord (renderTarget aliases target) := by
  unfold renderTarget
  split
  · next name hname =>
    rw [IsWord, toList_alias]
    exact ⟨List.cons_ne_nil _ _,
      List.forall_mem_cons.mpr ⟨by decide, h _ (mem_of_nameOf? hname)⟩⟩
  · exact isWord_hex target.bytes

theorem isWord_callWords {aliases : Aliases} (h : aliases.Plain) (c : Command) :
    ∀ word ∈ callWords aliases c, IsWord word := by
  intro word hword
  simp only [callWords, List.mem_append, List.mem_cons, List.not_mem_nil, or_false, List.mem_map] at hword
  rcases hword with (((rfl | rfl | rfl) | ⟨arg, -, rfl⟩) | houtput) | ⟨flag, -, rfl⟩
  · exact isWord_mnemonic c.kind
  · exact isWord_target h c.target
  · exact isWord_selector c
  · exact isWord_arg arg
  · split at houtput
    · cases houtput
    · simp only [List.mem_cons, List.not_mem_nil, or_false] at houtput
      rcases houtput with rfl | rfl
      · decide
      · exact isWord_output c.output
  · exact isWord_flag flag

/-! ## Operands -/

theorem parseSlotIndex_toDigits {slot : UInt8} (h : slot.toNat < maxSlots) :
    parseSlotIndex (Nat.toDigits 10 slot.toNat) = .ok slot := by
  have hread : Text.decimal? 64 (Nat.toDigits 10 slot.toNat) = some slot.toNat :=
    Text.decimal?_toDigits (Nat.lt_of_lt_of_le slot.toNat_lt (by decide))
  simp [parseSlotIndex, hread, h]

/-- A letter and digits are no keyword. -/
theorem slotText_ne_state (letter : Char) (n : Nat) : slotText letter n ≠ "state" := by
  intro heq
  have hlist : letter :: Nat.toDigits 10 n = "state".toList := by rw [← heq, toList_slotText]
  have hdigits : Nat.toDigits 10 n = ['t', 'a', 't', 'e'] := (List.cons.inj hlist).2
  have hdigit : Text.isDigit 't' = true := Text.isDigit_of_mem_toDigits (hdigits ▸ List.mem_cons_self ..)
  exact absurd hdigit (by decide)

theorem parseArg_render {arg : Arg} (h : arg.InRange) : parseArg arg.render = .ok arg := by
  cases arg with
  | static slot =>
      rw [render_static, parseArg, if_neg (slotText_ne_state 's' slot.toNat), toList_slotText]
      exact congrArg (Arg.static <$> ·) (parseSlotIndex_toDigits h)
  | dynamic slot =>
      rw [render_dynamic, parseArg, if_neg (slotText_ne_state 'd' slot.toNat), toList_slotText]
      exact congrArg (Arg.dynamic <$> ·) (parseSlotIndex_toDigits h)
  | state => rfl

theorem slotText_ne_discard (letter : Char) (n : Nat) : slotText letter n ≠ "_" := by
  intro heq
  have hlist : letter :: Nat.toDigits 10 n = "_".toList := by rw [← heq, toList_slotText]
  exact Nat.toDigits_ne_nil (List.cons.inj hlist).2

theorem parseOutput_render {output : Output} (h : output.InRange) :
    parseOutput output.render = .ok output := by
  cases output with
  | static slot =>
      have harg : parseArg (slotText 's' slot.toNat) = .ok (.static slot) := @parseArg_render (.static slot) h
      have htext : (Output.static slot).render = slotText 's' slot.toNat := rfl
      rw [htext, parseOutput, if_neg (slotText_ne_discard _ _), if_neg (slotText_ne_state _ _), harg]
  | dynamic slot =>
      have harg : parseArg (slotText 'd' slot.toNat) = .ok (.dynamic slot) := @parseArg_render (.dynamic slot) h
      have htext : (Output.dynamic slot).render = slotText 'd' slot.toNat := rfl
      rw [htext, parseOutput, if_neg (slotText_ne_discard _ _), if_neg (slotText_ne_state _ _), harg]
  | discard => rfl
  | replaceState => rfl

theorem parseSelector_render (c : Command) : parseSelector (renderSelector c) = .ok c.selector := by
  unfold renderSelector
  split
  · next h =>
    have hselector : c.selector = .fallback := by simpa [Command.isFallback] using h
    rw [hselector]
    rfl
  · have hmarked : isMarked c.selector.toHex = true := by
      rw [isMarked, FixedBytes.toHex, Hex.toList_render]
      rfl
    have hne : c.selector.toHex ≠ "fallback" := by
      intro heq
      have hlist := congrArg String.toList heq
      rw [FixedBytes.toHex, Hex.toList_render] at hlist
      cases hlist
    rw [parseSelector, if_neg hne, if_pos hmarked, FixedBytes.toHex, Hex.decode_render]
    simp [FixedBytes.ofBytes?, c.selector.length_eq]

theorem parseAddress_toHex (target : Address) : parseAddress target.toHex = .ok target := by
  rw [parseAddress, Address.parse, FixedBytes.toHex, Hex.decode_render]
  simp [FixedBytes.ofBytes?, target.length_eq]

theorem parseTarget_render (aliases : Aliases) (target : Address) :
    parseTarget aliases (renderTarget aliases target) = .ok target := by
  unfold renderTarget
  split
  · next name hname =>
    have hresolve : aliases.resolve? name = some target := SortedMap.get?_of_mem (mem_of_nameOf? hname)
    simp only [parseTarget, toList_alias, String.ofList_toList, hresolve]
  · have haddress : parseTarget aliases target.toHex = parseAddress target.toHex := by
      rw [parseTarget, FixedBytes.toHex, Hex.toList_render]
      rfl
    rw [haddress, parseAddress_toHex]

/-! ## Calls -/

theorem afterArrow?_arg (arg : Arg) : afterArrow? arg.render = none := by
  cases arg with
  | static slot => rw [afterArrow?, render_static, toList_slotText]; rfl
  | dynamic slot => rw [afterArrow?, render_dynamic, toList_slotText]; rfl
  | state => rfl

theorem afterPlus?_arg (arg : Arg) : afterPlus? arg.render = none := by
  cases arg with
  | static slot => rw [afterPlus?, render_static, toList_slotText]; rfl
  | dynamic slot => rw [afterPlus?, render_dynamic, toList_slotText]; rfl
  | state => rfl

/-- Arguments are read one after the other. -/
theorem parseOperands_args {args : List Arg} (hargs : ∀ arg ∈ args, arg.InRange) {read : Operands}
    (houtput : read.output? = none) (hlength : read.args.length + args.length ≤ Command.maxArgs)
    {tokens : List Token} (htexts : tokens.map (·.text) = args.map Arg.render) (rest : List Token) :
    parseOperands read (tokens ++ rest) = parseOperands { read with args := read.args ++ args } rest := by
  induction args generalizing read tokens with
  | nil =>
      obtain rfl := List.map_eq_nil_iff.mp htexts
      simp
  | cons arg args ih =>
      obtain ⟨harg, hargs⟩ := List.forall_mem_cons.mp hargs
      obtain ⟨token, tokens, rfl, htext, htexts⟩ := List.map_eq_cons_iff.mp htexts
      rw [List.length_cons] at hlength
      have hroom : read.args.length ≠ Command.maxArgs := by omega
      rw [List.cons_append, parseOperands.eq_def]
      simp only [htext, afterArrow?_arg, afterPlus?_arg, houtput, Option.isSome_none, Bool.false_eq_true,
        ↓reduceIte, hroom, parseArg_render harg, located, Except.ok_bind]
      rw [ih hargs rfl (by simp; omega) htexts]
      simp

theorem parseOperands_output {output : Output} (h : output.InRange) {read : Operands}
    (houtput : read.output? = none) {arrow target : Token} (harrow : arrow.text = "->")
    (htarget : target.text = output.render) (rest : List Token) :
    parseOperands read (arrow :: target :: rest) =
      parseOperands { read with output? := some output } rest := by
  have hafter : afterArrow? "->" = some [] := rfl
  simp only [parseOperands, harrow, hafter, houtput, Option.isSome_none, Bool.false_eq_true, ↓reduceIte,
    List.isEmpty_nil, htarget, parseOutput_render h, located, Except.ok_bind]

theorem parseOperands_flags (flags : List Flag) {read : Operands} {tokens : List Token}
    (htexts : tokens.map (·.text) = flags.map fun flag => "+" ++ flag.name) :
    parseOperands read tokens =
      .ok { read with flags := flags.foldl (fun bits flag => bits ||| flag.bit) read.flags } := by
  induction flags generalizing read tokens with
  | nil =>
      obtain rfl := List.map_eq_nil_iff.mp htexts
      rfl
  | cons flag flags ih =>
      obtain ⟨token, tokens, rfl, htext, htexts⟩ := List.map_eq_cons_iff.mp htexts
      have harrow : afterArrow? ("+" ++ flag.name) = none := by cases flag <;> rfl
      have hplus : afterPlus? ("+" ++ flag.name) = some flag.name.toList := by cases flag <;> rfl
      have hname : Flag.ofName? flag.name = some flag := by cases flag <;> rfl
      rw [parseOperands.eq_def]
      simp only [htext, harrow, hplus, String.ofList_toList, hname, List.foldl_cons]
      exact ih htexts

/-- The words of a call behind its selector. -/
def operandWords (c : Command) : List String :=
  c.args.map Arg.render ++ (if c.output = .discard then [] else ["->", c.output.render]) ++
    (Flag.all.filter c.has).map fun flag => "+" ++ flag.name

theorem callWords_eq (aliases : Aliases) (c : Command) :
    callWords aliases c = c.kind.mnemonic :: renderTarget aliases c.target :: renderSelector c :: operandWords c := by
  simp [callWords, operandWords]

theorem parseOperands_operandWords {c : Command} (h : c.Canonical) {tokens : List Token}
    (htexts : tokens.map (·.text) = operandWords c) :
    ∃ operands, parseOperands {} tokens = .ok operands ∧ operands.args = c.args ∧
      operands.output?.getD .discard = c.output ∧ operands.flags = Flag.bits (Flag.all.filter c.has) := by
  obtain ⟨-, -, hargs, houtput, -⟩ := Command.canonical_iff.mp h
  rw [operandWords, List.append_assoc] at htexts
  obtain ⟨argTokens, rest, rfl, hargTexts, htexts⟩ := List.map_eq_append_iff.mp htexts
  obtain ⟨outputTokens, flagTokens, rfl, houtputTexts, hflagTexts⟩ := List.map_eq_append_iff.mp htexts
  rw [parseOperands_args hargs rfl (by simpa using c.length_args_le) hargTexts]
  by_cases hdiscard : c.output = .discard
  · -- An output that discards is not written, and is what is meant when none is given.
    rw [if_pos hdiscard] at houtputTexts
    obtain rfl := List.map_eq_nil_iff.mp houtputTexts
    simp only [List.nil_append]
    rw [parseOperands_flags _ hflagTexts]
    exact ⟨_, rfl, rfl, hdiscard.symm, rfl⟩
  · rw [if_neg hdiscard] at houtputTexts
    obtain ⟨arrow, targetTokens, rfl, harrow, houtputTexts⟩ := List.map_eq_cons_iff.mp houtputTexts
    obtain ⟨target, noTokens, rfl, htarget, hnone⟩ := List.map_eq_cons_iff.mp houtputTexts
    obtain rfl := List.map_eq_nil_iff.mp hnone
    rw [List.cons_append, List.singleton_append, parseOperands_output houtput rfl harrow htarget,
      parseOperands_flags _ hflagTexts]
    exact ⟨_, rfl, rfl, rfl, rfl⟩

/-- A canonical command is read back from its words. -/
theorem parseCall_callWords {c : Command} (h : c.Canonical) (aliases : Aliases) (column : Nat)
    {target selector : Token} (htarget : target.text = renderTarget aliases c.target)
    (hselector : selector.text = renderSelector c) {operandTokens : List Token}
    (htexts : operandTokens.map (·.text) = operandWords c) :
    parseCall aliases c.kind column (target :: selector :: operandTokens) = .ok c := by
  obtain ⟨operands, hoperands, hargs, houtput, hflags⟩ := parseOperands_operandWords h htexts
  have hvalue : ¬ (c.kind = .value ∧ ¬ startsStatic c.args = true) := fun hbad =>
    hbad.2 ((Command.canonical_iff.mp h).2.2.2.2 hbad.1)
  simp only [parseCall, htarget, parseTarget_render, hselector, parseSelector_render, located,
    Except.ok_bind, hoperands, hargs, houtput, hflags, if_neg hvalue, Command.make_of_canonical h,
    Except.pure_eq_ok]

/-! ## Lines -/

/-- The words of a slot's line. -/
def slotWords (value : Bytes) : List String :=
  ["slot", if value.length = 32 then "word" else "bytes", Hex.render value]

theorem isWord_slotWords (value : Bytes) : ∀ word ∈ slotWords value, IsWord word := by
  intro word hword
  simp only [slotWords, List.mem_cons, List.not_mem_nil, or_false] at hword
  rcases hword with rfl | rfl | rfl
  · decide
  · split <;> decide
  · exact isWord_hex value

theorem parseLiteral_render (aliases : Aliases) (value : Bytes) :
    parseLiteral aliases (if value.length = 32 then "word" else "bytes") (Hex.render value) = .ok value := by
  have hhex : parseHex (Hex.render value) = .ok value := by simp only [parseHex, Hex.decode_render]
  split
  · next hlength => simp [parseLiteral, hhex, hlength]
  · simp [parseLiteral, hhex]

namespace Draft

variable {aliases : Aliases} {commands : List Record} {state : List Bytes}

theorem addLine_literal (h : state.length < maxSlots) {kind literal : String} {value : Bytes}
    (hkind : IsToken kind.toList) (hliteral : IsToken literal.toList)
    (hvalue : parseLiteral aliases kind literal = .ok value) :
    addLine ⟨⟨commands, state⟩, aliases⟩ (wordsLine ["slot", kind, literal]) =
      .ok ⟨⟨commands, state ++ [value]⟩, aliases⟩ := by
  have hwords : ∀ word ∈ ["slot", kind, literal], IsToken word.toList := by
    simp only [List.forall_mem_cons]
    exact ⟨by decide, hkind, hliteral, fun _ hmem => by cases hmem⟩
  obtain ⟨tokens, htokens, htexts⟩ := tokenize_tokensLine hwords
  obtain ⟨first, rest, rfl, hfirst, htexts⟩ := List.map_eq_cons_iff.mp htexts
  obtain ⟨second, rest, rfl, hsecond, htexts⟩ := List.map_eq_cons_iff.mp htexts
  obtain ⟨third, rest, rfl, hthird, htexts⟩ := List.map_eq_cons_iff.mp htexts
  obtain rfl := List.map_eq_nil_iff.mp htexts
  have hroom : ¬ state.length ≥ maxSlots := Nat.not_le.mpr h
  simp only [addLine, htokens, Except.ok_bind, addTokens, hfirst, ↓reduceIte, addSlot, hroom, hsecond, hthird,
    hvalue, located, Except.pure_eq_ok]

/-- The line of a slot adds its value. -/
theorem addLine_slot (h : state.length < maxSlots) (value : Bytes) :
    addLine ⟨⟨commands, state⟩, aliases⟩ (wordsLine (slotWords value)) =
      .ok ⟨⟨commands, state ++ [value]⟩, aliases⟩ := by
  have hwords := isWord_slotWords value
  simp only [slotWords, List.forall_mem_cons] at hwords
  obtain ⟨-, hkind, hliteral, -⟩ := hwords
  exact addLine_literal h hkind.isToken hliteral.isToken (parseLiteral_render aliases value)

/-- The line of a canonical command adds its record. -/
theorem addLine_call (hplain : aliases.Plain) {r : Record} (h : (Command.ofRecord r).Canonical) :
    addLine ⟨⟨commands, state⟩, aliases⟩ (wordsLine (callWords aliases (.ofRecord r))) =
      .ok ⟨⟨commands ++ [r], state⟩, aliases⟩ := by
  obtain ⟨tokens, htokens, htexts⟩ := tokenize_wordsLine (isWord_callWords hplain (.ofRecord r))
  rw [callWords_eq] at htexts
  obtain ⟨first, rest, rfl, hfirst, htexts⟩ := List.map_eq_cons_iff.mp htexts
  obtain ⟨target, rest, rfl, htarget, htexts⟩ := List.map_eq_cons_iff.mp htexts
  obtain ⟨selector, rest, rfl, hselector, htexts⟩ := List.map_eq_cons_iff.mp htexts
  have hkind (kind : CallKind) : kind.mnemonic ≠ "slot" ∧ kind.mnemonic ≠ "alias" ∧
      CallKind.ofMnemonic? kind.mnemonic = some kind := by cases kind <;> decide
  obtain ⟨hslot, halias, hmnemonic⟩ := hkind (Command.ofRecord r).kind
  simp only [addLine, htokens, Except.ok_bind, addTokens, hfirst, hslot, halias, ↓reduceIte, addCall, hmnemonic,
    parseCall_callWords h aliases first.column htarget hselector htexts, Command.toRecord_ofRecord,
    Except.pure_eq_ok]

theorem addLines_slots (values : List Bytes) (h : state.length + values.length ≤ maxSlots) (number : Nat)
    (rest : List (List Char)) :
    addLines ⟨⟨commands, state⟩, aliases⟩ number
        (values.map (fun value => wordsLine (slotWords value)) ++ rest) =
      addLines ⟨⟨commands, state ++ values⟩, aliases⟩ (number + values.length) rest := by
  induction values generalizing state number with
  | nil => simp
  | cons value values ih =>
      rw [List.length_cons] at h
      rw [List.map_cons, List.cons_append, addLines, addLine_slot (by omega) value]
      simp only
      rw [ih (by simp; omega)]
      simp [Nat.add_assoc, Nat.add_comm 1]

theorem addLines_calls (hplain : aliases.Plain) (records : List Record)
    (h : ∀ r ∈ records, (Command.ofRecord r).Canonical) (number : Nat) :
    addLines ⟨⟨commands, state⟩, aliases⟩ number
        (records.map fun r => wordsLine (callWords aliases (.ofRecord r))) =
      .ok ⟨⟨commands ++ records, state⟩, aliases⟩ := by
  induction records generalizing commands number with
  | nil => simp [addLines]
  | cons r records ih =>
      obtain ⟨hr, hrecords⟩ := List.forall_mem_cons.mp h
      rw [List.map_cons, addLines, addLine_call hplain hr]
      simp only
      rw [ih hrecords]
      simp

end Draft

/-! ## Scripts -/

theorem toList_slotLine (value : Bytes) : (slotLine value).toList = wordsLine (slotWords value) ++ ['\n'] := by
  have hline : slotLine value = "slot " ++ (if value.length = 32 then "word" else "bytes") ++ " " ++
      Hex.render value ++ "\n" := rfl
  rw [hline]
  simp [slotWords, wordsLine_cons_cons, wordsLine_singleton]

theorem toList_callLine (aliases : Aliases) (c : Command) :
    (callLine aliases c).toList = wordsLine (callWords aliases c) ++ ['\n'] := by
  rw [callLine, String.toList_append]
  rfl

theorem line_ends_not_mem_wordsLine {words : List String} (h : ∀ word ∈ words, IsWord word) :
    '\n' ∉ wordsLine words ∧ '\r' ∉ wordsLine words := by
  constructor
  · intro hmem
    exact absurd (mem_wordsLine h hmem) (by decide)
  · intro hmem
    exact absurd (mem_wordsLine h hmem) (by decide)

/-- The text of a script has one line for each slot and each command. -/
theorem lines_disassemble {aliases : Aliases} (h : aliases.Plain) (s : Script) :
    Text.lines (disassemble aliases s) =
      s.state.map (fun value => wordsLine (slotWords value)) ++
        s.commands.map fun r => wordsLine (callWords aliases (.ofRecord r)) := by
  have htext : (disassemble aliases s).toList =
      (s.state.map (fun value => wordsLine (slotWords value)) ++
        s.commands.map fun r => wordsLine (callWords aliases (.ofRecord r))).flatMap (· ++ ['\n']) := by
    simp [disassemble, Script.decoded, String.toList_join, List.flatMap_map, toList_slotLine, toList_callLine]
  -- The words have no line ends of their own, so the lines part where they were joined.
  rw [Text.lines, htext, Text.linesFrom_flatMap]
  intro line hline
  rcases List.mem_append.mp hline with hline | hline
  · obtain ⟨value, -, rfl⟩ := List.mem_map.mp hline
    exact line_ends_not_mem_wordsLine (isWord_slotWords value)
  · obtain ⟨r, -, rfl⟩ := List.mem_map.mp hline
    exact line_ends_not_mem_wordsLine (isWord_callWords h (.ofRecord r))

/-- A canonical script is assembled from its text. -/
theorem assemble_disassemble {aliases : Aliases} (hplain : aliases.Plain) {s : Script} (h : s.Canonical) :
    assemble aliases (disassemble aliases s) = .ok s := by
  have hdraft : Draft.addLines { aliases } 1 (Text.lines (disassemble aliases s)) = .ok ⟨s, aliases⟩ := by
    rw [lines_disassemble hplain]
    refine (Draft.addLines_slots s.state (by simpa using h.length_le) 1 _).trans ?_
    exact Draft.addLines_calls hplain s.commands h.commands _
  rw [assemble, hdraft]
  rfl

/-- Only canonical scripts are assembled. In turn, whatever a script is, its records are commands and
can be written down, and it is assembled again from that text, with the same aliases, exactly if it
is canonical. -/
theorem disassemble_reassembles :
    (∀ (aliases : Aliases) (source : String) (script : Script),
      assemble aliases source = .ok script → script.Canonical) ∧
    ∀ aliases : Aliases, aliases.Plain → ∀ script : Script,
      Command.decodeAll (script.commands.map (·.bytes)) = .ok script.decoded ∧
      (assemble aliases (disassemble aliases script) = .ok script ↔ script.Canonical) := by
  refine ⟨fun _ _ _ => canonical_of_assemble, fun aliases hplain script => ⟨?_, ?_, ?_⟩⟩
  · exact Command.decodeFrom_records script.commands 0
  · exact canonical_of_assemble
  · exact assemble_disassemble hplain

/-- A value call that is written with an alias, and the same call with a bit that has no meaning. -/
theorem disassemble_reassembles_value_call :
    let aliases : Aliases := SortedMap.empty.insert "vault" (.ofNat 20 7)
    let call := Command.make .value (.ofNat 4 1) (.ofNat 20 7) [.static 0, .dynamic 1, .state] (.dynamic 125)
      Flag.tuple.bit
    let script : Script := ⟨[call.toRecord], [(Word.ofNat 5).bytes, [1, 2, 3]]⟩
    let marked : Script := ⟨[{ call with flags := call.flags ||| 4 }.toRecord], []⟩
    let source := "slot u256 5 # coins\nslot bytes 0x010203\n" ++
      "valuecall @vault 0x00000001 s0, d1, state ->d125 +tuple"
    aliases.Plain ∧ assemble aliases source = .ok script ∧ script.Canonical ∧
      assemble aliases (disassemble aliases script) = .ok script ∧
      ¬ marked.Canonical ∧ assemble aliases (disassemble aliases marked) ≠ .ok marked := by
  intro aliases call script marked source
  have hplain : aliases.Plain := by decide +kernel
  have hsource : assemble aliases source = .ok script := by
    have hread : (assemble aliases source).toOption = some script := by decide +kernel
    cases hresult : assemble aliases source with
    | ok found => rw [hresult] at hread; exact congrArg Except.ok (Option.some.inj hread)
    | error e => rw [hresult] at hread; cases hread
  have hscript : script.Canonical := disassemble_reassembles.1 aliases source script hsource
  have hmarked : ¬ marked.Canonical := by decide +kernel
  have hback := disassemble_reassembles.2 aliases hplain
  exact ⟨hplain, hsource, hscript, (hback script).2.mpr hscript, hmarked, mt (hback marked).2.mp hmarked⟩

end Assembly

end CallScript
