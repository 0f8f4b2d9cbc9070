import CallScript.Assembly.Assemble
import CallScript.Proofs.Command
import CallScript.Proofs.Except

/-!
# Canonical scripts

Every 32 bytes are a command, but assembly text cannot say all of them. A record that it can say has
no bits without a meaning, nothing behind the end of its arguments, and only slots that can be
addressed. Whatever the assembler accepts, it puts together such records.
-/

namespace CallScript

/-! ## Bytes -/

theorem forall_byte {P : UInt8 → Prop} (h : ∀ n : Fin 256, P (UInt8.ofNat n.val)) (b : UInt8) : P b := by
  simpa using h ⟨b.toNat, b.toNat_lt⟩

theorem Arg.ofByte?_eq_none {b : UInt8} : ofByte? b = none ↔ b = 0xff := by
  unfold ofByte?
  split
  · simp_all
  · split
    · simp_all
    · split <;> simp_all

theorem Arg.map_toByte_ofByte? (b : UInt8) : (ofByte? b).map toByte = if b = 0xff then none else some b := by
  revert b
  refine forall_byte ?_
  decide +kernel

theorem Arg.toByte_of_ofByte? {b : UInt8} {arg : Arg} (h : ofByte? b = some arg) : arg.toByte = b := by
  have hmap := map_toByte_ofByte? b
  rw [h] at hmap
  split at hmap
  · cases hmap
  · exact Option.some.inj hmap

theorem Arg.toByte_ne_end {arg : Arg} (h : arg.InRange) : arg.toByte ≠ 0xff := by
  intro heq
  have hread := ofByte?_toByte h
  rw [ofByte?_eq_none.mpr heq] at hread
  cases hread

/-- The high bit and an index that cannot be addressed are one of the two marks. -/
theorem low_bits_lt (b : UInt8) : b ≠ 0xff → b ≠ 0xfe → b &&& 0x80 ≠ 0 → (b &&& 0x7f).toNat < maxSlots := by
  revert b
  refine forall_byte ?_
  decide +kernel

theorem Arg.inRange_of_ofByte? {b : UInt8} {arg : Arg} (h : ofByte? b = some arg)
    (hstatic : ∀ slot, arg = .static slot → slot.toNat < maxSlots) : arg.InRange := by
  unfold ofByte? at h
  split at h
  · cases h
  · split at h
    · cases h
      trivial
    · split at h
      · next hend hstate hhigh =>
        cases h
        exact low_bits_lt b hend hstate hhigh
      · cases h
        exact hstatic b rfl

/-- The slot of an output can be addressed. -/
def Output.InRange : Output → Prop
  | .static slot => slot.toNat < maxSlots
  | .dynamic slot => slot.toNat < maxSlots
  | .discard => True
  | .replaceState => True

instance : (arg : Arg) → Decidable arg.InRange
  | .static slot => inferInstanceAs (Decidable (slot.toNat < maxSlots))
  | .dynamic slot => inferInstanceAs (Decidable (slot.toNat < maxSlots))
  | .state => inferInstanceAs (Decidable True)

instance : (output : Output) → Decidable output.InRange
  | .static slot => inferInstanceAs (Decidable (slot.toNat < maxSlots))
  | .dynamic slot => inferInstanceAs (Decidable (slot.toNat < maxSlots))
  | .discard => inferInstanceAs (Decidable True)
  | .replaceState => inferInstanceAs (Decidable True)

theorem Output.inRange_ofByte {b : UInt8} (h : ∀ slot, ofByte b = .static slot → slot.toNat < maxSlots) :
    (ofByte b).InRange := by
  unfold ofByte at h ⊢
  split
  · trivial
  · split
    · trivial
    · split
      · next hend hstate hhigh => exact low_bits_lt b hend hstate hhigh
      · next hend hstate hhigh => exact h b (by simp [hend, hstate, hhigh])

theorem Output.toByte_ofByte (b : UInt8) : (ofByte b).toByte = b := by
  revert b
  refine forall_byte ?_
  decide +kernel

theorem Output.ofByte_static_lt (n : Fin maxSlots) :
    ofByte (toByte (.static (UInt8.ofNat n))) = .static (UInt8.ofNat n) := by
  revert n
  decide

theorem Output.ofByte_dynamic_lt (n : Fin maxSlots) :
    ofByte (toByte (.dynamic (UInt8.ofNat n))) = .dynamic (UInt8.ofNat n) := by
  revert n
  decide

theorem Output.ofByte_toByte {output : Output} (h : output.InRange) : ofByte output.toByte = output := by
  cases output with
  | static slot => simpa using Output.ofByte_static_lt ⟨slot.toNat, h⟩
  | dynamic slot => simpa using Output.ofByte_dynamic_lt ⟨slot.toNat, h⟩
  | discard => rfl
  | replaceState => rfl

/-- The bits of some flags together. -/
def Flag.bits (flags : List Flag) : UInt8 :=
  flags.foldl (fun bits flag => bits ||| flag.bit) 0

/-- A flag byte is its kind and its flags, if the bits without a meaning are clear. -/
theorem Flag.toFlags_or_bits (flags : UInt8) : flags &&& 0x1c = 0 →
    (CallKind.ofFlags flags).toFlags ||| bits (all.filter fun flag => flags &&& flag.bit ≠ 0) = flags := by
  revert flags
  refine forall_byte ?_
  decide +kernel

theorem Flag.or_bit_and (flag : Flag) (flags : UInt8) : flags &&& 0x1f = 0 →
    (flags ||| flag.bit) &&& 0x1f = 0 := by
  revert flags
  refine forall_byte ?_
  cases flag <;> decide +kernel

theorem CallKind.toFlags_or (kind : CallKind) (flags : UInt8) : flags &&& 0x1f = 0 →
    ofFlags (kind.toFlags ||| flags) = kind ∧ (kind.toFlags ||| flags) &&& 0x1c = 0 := by
  revert flags
  refine forall_byte ?_
  cases kind <;> decide +kernel

/-! ## Commands -/

namespace Command

/-- A command that assembly text can say. -/
structure Canonical (c : Command) : Prop where
  /-- The bits without a meaning are clear. -/
  unused_clear : c.flags &&& 0x1c = 0
  /-- Behind the first end mark there are end marks only. -/
  padded : ∀ b ∈ c.argBytes.bytes.dropWhile (· ≠ 0xff), b = 0xff
  static_args : ∀ slot, Arg.static slot ∈ c.args → slot.toNat < maxSlots
  static_output : ∀ slot, c.output = .static slot → slot.toNat < maxSlots
  value_slot : c.kind = .value → ∃ slot rest, c.args = .static slot :: rest

theorem mem_unpackArgs {arg : Arg} {bytes : Bytes} (h : arg ∈ unpackArgs bytes) :
    ∃ b ∈ bytes, Arg.ofByte? b = some arg := by
  induction bytes with
  | nil => cases h
  | cons b bytes ih =>
      unfold unpackArgs at h
      split at h
      · next first hfirst =>
        rcases List.mem_cons.mp h with rfl | h
        · exact ⟨b, List.mem_cons_self .., hfirst⟩
        · obtain ⟨b', hmem, hb'⟩ := ih h
          exact ⟨b', List.mem_cons_of_mem _ hmem, hb'⟩
      · cases h

theorem startsStatic_iff {args : List Arg} :
    Assembly.startsStatic args = true ↔ ∃ slot rest, args = .static slot :: rest := by
  cases args with
  | nil => simp [Assembly.startsStatic]
  | cons arg rest => cases arg <;> simp [Assembly.startsStatic, Arg.isStatic]

/-- Only a static slot can be one that cannot be addressed. -/
theorem canonical_iff {c : Command} :
    c.Canonical ↔ c.flags &&& 0x1c = 0 ∧ (∀ b ∈ c.argBytes.bytes.dropWhile (· ≠ 0xff), b = 0xff) ∧
      (∀ arg ∈ c.args, arg.InRange) ∧ c.output.InRange ∧
      (c.kind = .value → Assembly.startsStatic c.args = true) := by
  simp only [startsStatic_iff]
  constructor
  · rintro ⟨hclear, hpadded, hargs, houtput, hvalue⟩
    refine ⟨hclear, hpadded, fun arg harg => ?_, Output.inRange_ofByte houtput, hvalue⟩
    obtain ⟨b, -, hb⟩ := mem_unpackArgs harg
    exact Arg.inRange_of_ofByte? hb fun slot hslot => hargs slot (hslot ▸ harg)
  · rintro ⟨hclear, hpadded, hargs, houtput, hvalue⟩
    refine ⟨hclear, hpadded, fun slot hslot => hargs _ hslot, fun slot hslot => ?_, hvalue⟩
    rw [hslot] at houtput
    exact houtput

instance (c : Command) : Decidable c.Canonical :=
  haveI := List.decidableBAll (· = 0xff) (c.argBytes.bytes.dropWhile (· ≠ 0xff))
  decidable_of_iff _ canonical_iff.symm

/-! ## Putting commands together -/

/-- What a command put together from operands that fit is made of. -/
theorem canonical_make {args : List Arg} {output : Output} {flags : UInt8} (kind : CallKind)
    (selector : Selector) (target : Address) (hargs : ∀ arg ∈ args, arg.InRange)
    (hlength : args.length ≤ maxArgs) (houtput : output.InRange) (hflags : flags &&& 0x1f = 0)
    (hvalue : kind = .value → Assembly.startsStatic args = true) :
    (make kind selector target args output flags).Canonical := by
  obtain ⟨hkind, hclear⟩ := kind.toFlags_or flags hflags
  refine canonical_iff.mpr ⟨hclear, ?_, ?_, ?_, ?_⟩
  · simp only [make, bytes_packArgs hlength]
    rw [List.dropWhile_append_of_pos]
    · exact fun b hb => List.eq_of_mem_replicate (List.dropWhile_subset _ hb)
    · intro b hb
      obtain ⟨arg, harg, rfl⟩ := List.mem_map.mp hb
      simpa using Arg.toByte_ne_end (hargs arg harg)
  · rw [args_make hargs hlength]
    exact hargs
  · simp only [Command.output, make, Output.ofByte_toByte houtput]
    exact houtput
  · rw [args_make hargs hlength]
    intro hcall
    exact hvalue (hkind.symm.trans hcall)

theorem length_unpackArgs_le (bytes : Bytes) : (unpackArgs bytes).length ≤ bytes.length := by
  induction bytes with
  | nil => exact Nat.le_refl _
  | cons b bytes ih =>
      unfold unpackArgs
      split
      · exact Nat.succ_le_succ ih
      · exact Nat.zero_le _

theorem length_args_le (c : Command) : c.args.length ≤ maxArgs := by
  have hle := length_unpackArgs_le c.argBytes.bytes
  rwa [c.argBytes.length_eq] at hle

theorem map_unpackArgs {bytes : Bytes} (h : ∀ b ∈ bytes.dropWhile (· ≠ 0xff), b = 0xff) :
    (unpackArgs bytes).map Arg.toByte ++ List.replicate (bytes.length - (unpackArgs bytes).length) 0xff =
      bytes := by
  induction bytes with
  | nil => rfl
  | cons b bytes ih =>
      unfold unpackArgs
      cases hb : Arg.ofByte? b with
      | none =>
          have hall : ∀ b' ∈ b :: bytes, b' = 0xff := by
            rwa [List.dropWhile_cons_of_neg (by simp [Arg.ofByte?_eq_none.mp hb])] at h
          exact (List.eq_replicate_of_mem hall).symm
      | some arg =>
          have hne : b ≠ 0xff := fun heq => by simp [Arg.ofByte?_eq_none.mpr heq] at hb
          rw [List.dropWhile_cons_of_pos (by simpa using hne)] at h
          simp only [List.map_cons, List.length_cons, Nat.add_sub_add_right, List.cons_append, ih h,
            Arg.toByte_of_ofByte? hb]

/-- A canonical command is put together from what it shows. -/
theorem make_of_canonical {c : Command} (h : c.Canonical) :
    make c.kind c.selector c.target c.args c.output (Flag.bits (Flag.all.filter c.has)) = c := by
  have hflags := Flag.toFlags_or_bits c.flags h.unused_clear
  have hargs : packArgs c.args = c.argBytes := by
    refine FixedBytes.ext ?_
    rw [bytes_packArgs c.length_args_le]
    have hbytes := map_unpackArgs h.padded
    rwa [c.argBytes.length_eq] at hbytes
  have houtput := Output.toByte_ofByte c.outputByte
  obtain ⟨selector, flags, argBytes, outputByte, target⟩ := c
  simp only [make, Command.mk.injEq, true_and, and_true]
  exact ⟨hflags, hargs, houtput⟩

end Command

/-- A script that assembly text can say. -/
structure Script.Canonical (s : Script) : Prop where
  length_le : s.state.length ≤ maxSlots
  commands : ∀ r ∈ s.commands, (Command.ofRecord r).Canonical

theorem Script.canonical_iff {s : Script} :
    s.Canonical ↔ s.state.length ≤ maxSlots ∧ ∀ r ∈ s.commands, (Command.ofRecord r).Canonical :=
  ⟨fun h => ⟨h.length_le, h.commands⟩, fun h => ⟨h.1, h.2⟩⟩

instance (s : Script) : Decidable s.Canonical := decidable_of_iff _ Script.canonical_iff.symm

/-! ## What the assembler reads -/

namespace Assembly

theorem located_ok {α : Type} {column : Nat} {result : Except Reason α} {a : α}
    (h : located column result = .ok a) : result = .ok a := by
  cases result with
  | ok b => cases h; rfl
  | error reason => cases h

theorem parseSlotIndex_lt {digits : List Char} {slot : UInt8} (h : parseSlotIndex digits = .ok slot) :
    slot.toNat < maxSlots := by
  unfold parseSlotIndex at h
  split at h
  · cases h
  · next index _ =>
    split at h
    · next hlt =>
      cases h
      rw [UInt8.toNat_ofNat']
      exact Nat.lt_of_le_of_lt (Nat.mod_le _ _) hlt
    · cases h

theorem parseArg_inRange {text : String} {arg : Arg} (h : parseArg text = .ok arg) : arg.InRange := by
  unfold parseArg at h
  split at h
  · cases h
    trivial
  · split at h
    · obtain ⟨slot, hindex, rfl⟩ := Except.map_eq_ok.mp h
      exact parseSlotIndex_lt hindex
    · obtain ⟨slot, hindex, rfl⟩ := Except.map_eq_ok.mp h
      exact parseSlotIndex_lt hindex
    · cases h

theorem parseOutput_inRange {text : String} {output : Output} (h : parseOutput text = .ok output) :
    output.InRange := by
  unfold parseOutput at h
  split at h
  · cases h
    trivial
  · split at h
    · cases h
      trivial
    · split at h
      · next slot harg =>
        cases h
        exact parseArg_inRange harg
      · next slot harg =>
        cases h
        exact parseArg_inRange harg
      · cases h

/-- A record can hold these operands. -/
structure Operands.Fit (o : Operands) : Prop where
  args : ∀ arg ∈ o.args, arg.InRange
  length_le : o.args.length ≤ Command.maxArgs
  output : ∀ output, o.output? = some output → output.InRange
  flags : o.flags &&& 0x1f = 0

theorem Operands.fit_empty : Operands.Fit {} where
  args := fun _ h => by cases h
  length_le := Nat.zero_le _
  output := fun _ h => by cases h
  flags := rfl

theorem Operands.Fit.withOutput {read : Operands} (h : read.Fit) {output : Output} (ho : output.InRange) :
    Operands.Fit { read with output? := some output } :=
  { h with output := fun _ heq => by cases heq; exact ho }

theorem Operands.Fit.withArg {read : Operands} (h : read.Fit) {arg : Arg} (harg : arg.InRange)
    (hlength : read.args.length ≠ Command.maxArgs) :
    Operands.Fit { read with args := read.args ++ [arg] } where
  args := by simpa [or_imp, forall_and] using ⟨h.args, harg⟩
  length_le := by
    have hle := h.length_le
    simp only [List.length_append, List.length_singleton]
    omega
  output := h.output
  flags := h.flags

theorem Operands.Fit.parse {read operands : Operands} {tokens : List Token} (hread : read.Fit)
    (h : parseOperands read tokens = .ok operands) : operands.Fit := by
  -- Each token that is accepted adds one operand to what was read before it.
  fun_induction parseOperands read tokens with
  | case1 read => cases h; exact hread
  | case2 | case3 | case7 | case8 | case9 => cases h
  | case4 read token inline _ _ _ target rest ih =>
      obtain ⟨output, houtput, h⟩ := Except.bind_eq_ok.mp h
      exact ih output (hread.withOutput (parseOutput_inRange (located_ok houtput))) h
  | case5 read token rest inline _ _ _ ih =>
      obtain ⟨output, houtput, h⟩ := Except.bind_eq_ok.mp h
      exact ih output (hread.withOutput (parseOutput_inRange (located_ok houtput))) h
  | case6 read token rest _ name _ flag _ ih =>
      exact ih { hread with flags := flag.or_bit_and read.flags hread.flags } h
  | case10 read token rest _ _ _ hlength ih =>
      obtain ⟨arg, harg, h⟩ := Except.bind_eq_ok.mp h
      exact ih arg (hread.withArg (parseArg_inRange (located_ok harg)) hlength) h

theorem canonical_of_parseCall {aliases : Aliases} {kind : CallKind} {column : Nat} {tokens : List Token}
    {c : Command} (h : parseCall aliases kind column tokens = .ok c) : c.Canonical := by
  unfold parseCall at h
  split at h
  · cases h
  · obtain ⟨target, -, h⟩ := Except.bind_eq_ok.mp h
    split at h
    · cases h
    · obtain ⟨selector, -, h⟩ := Except.bind_eq_ok.mp h
      obtain ⟨operands, hoperands, h⟩ := Except.bind_eq_ok.mp h
      have hfit := Operands.fit_empty.parse hoperands
      split at h
      · cases h
      · next hvalue =>
        cases h
        refine Command.canonical_make kind selector target hfit.args hfit.length_le ?_ hfit.flags ?_
        · cases houtput : operands.output? with
          | none => trivial
          | some output => exact hfit.output output houtput
        · intro hkind
          simpa [hkind] using hvalue

/-! ## Drafts -/

namespace Draft

variable {d d' : Draft}

theorem addSlot_ok {column : Nat} {tokens : List Token} (h : d.addSlot column tokens = .ok d') :
    ∃ kind literal value, tokens = [kind, literal] ∧ d.script.state.length < maxSlots ∧
      parseLiteral d.aliases kind.text literal.text = .ok value ∧
      d' = { d with script := { d.script with state := d.script.state ++ [value] } } := by
  unfold addSlot at h
  split at h
  · next kind literal =>
    split at h
    · cases h
    · next hroom =>
      obtain ⟨value, hvalue, hpure⟩ := Except.bind_eq_ok.mp h
      cases hpure
      exact ⟨kind, literal, value, rfl, Nat.lt_of_not_ge hroom, located_ok hvalue, rfl⟩
  · cases h

theorem addAlias_ok {column : Nat} {tokens : List Token} (h : d.addAlias column tokens = .ok d') :
    ∃ name address target aliases, tokens = [name, address] ∧ parseAddress address.text = .ok target ∧
      d.aliases.define? name.text target = some aliases ∧ d' = { d with aliases } := by
  unfold addAlias at h
  split at h
  · next name address =>
    obtain ⟨target, htarget, h⟩ := Except.bind_eq_ok.mp h
    split at h
    · next aliases hdefine =>
      cases h
      exact ⟨name, address, target, aliases, rfl, located_ok htarget, hdefine, rfl⟩
    · cases h
  · cases h

theorem addCall_ok {mnemonic : String} {column : Nat} {tokens : List Token}
    (h : d.addCall mnemonic column tokens = .ok d') :
    ∃ kind command, CallKind.ofMnemonic? mnemonic = some kind ∧ parseCall d.aliases kind column tokens = .ok command ∧
      d' = { d with script := { d.script with commands := d.script.commands ++ [command.toRecord] } } := by
  unfold addCall at h
  split at h
  · cases h
  · next kind hkind =>
    obtain ⟨command, hcommand, hpure⟩ := Except.bind_eq_ok.mp h
    cases hpure
    exact ⟨kind, command, hkind, hcommand, rfl⟩

/-- What the tokens of a line can do to a draft. -/
theorem addTokens_cases {tokens : List Token} (h : d.addTokens tokens = .ok d') :
    (tokens = [] ∧ d' = d) ∨
    (∃ first kind literal value, tokens = [first, kind, literal] ∧ first.text = "slot" ∧
      d.script.state.length < maxSlots ∧ parseLiteral d.aliases kind.text literal.text = .ok value ∧
      d' = { d with script := { d.script with state := d.script.state ++ [value] } }) ∨
    (∃ first name address target aliases, tokens = [first, name, address] ∧ first.text = "alias" ∧
      parseAddress address.text = .ok target ∧ d.aliases.define? name.text target = some aliases ∧
      d' = { d with aliases }) ∨
    ∃ first rest kind command, tokens = first :: rest ∧ first.text ≠ "slot" ∧ first.text ≠ "alias" ∧
      CallKind.ofMnemonic? first.text = some kind ∧ parseCall d.aliases kind first.column rest = .ok command ∧
      d' = { d with script := { d.script with commands := d.script.commands ++ [command.toRecord] } } := by
  cases tokens with
  | nil =>
      cases h
      exact .inl ⟨rfl, rfl⟩
  | cons first rest =>
      rw [addTokens] at h
      right
      split at h
      · next hslot =>
        obtain ⟨kind, literal, value, rfl, hroom, hvalue, rfl⟩ := addSlot_ok h
        exact .inl ⟨first, kind, literal, value, rfl, hslot, hroom, hvalue, rfl⟩
      · next hslot =>
        right
        split at h
        · next halias =>
          obtain ⟨name, address, target, aliases, rfl, htarget, hdefine, rfl⟩ := addAlias_ok h
          exact .inl ⟨first, name, address, target, aliases, rfl, halias, htarget, hdefine, rfl⟩
        · next halias =>
          obtain ⟨kind, command, hkind, hcommand, rfl⟩ := addCall_ok h
          exact .inr ⟨first, rest, kind, command, rfl, hslot, halias, hkind, hcommand, rfl⟩

/-- A line keeps a draft canonical. -/
theorem canonical_addLine {line : List Char} (hd : d.script.Canonical) (h : d.addLine line = .ok d') :
    d'.script.Canonical := by
  obtain ⟨tokens, -, h⟩ := Except.bind_eq_ok.mp h
  obtain ⟨-, rfl⟩ | ⟨_, _, _, value, -, -, hroom, -, rfl⟩ | ⟨_, _, _, _, _, -, -, -, -, rfl⟩ |
    ⟨_, _, _, command, -, -, -, -, hcommand, rfl⟩ := addTokens_cases h
  · exact hd
  · refine ⟨?_, hd.commands⟩
    simp only [List.length_append, List.length_singleton]
    omega
  · exact hd
  · refine ⟨hd.length_le, fun r hr => ?_⟩
    rcases List.mem_append.mp hr with hr | hr
    · exact hd.commands r hr
    · rw [List.mem_singleton.mp hr, Command.ofRecord_toRecord]
      exact canonical_of_parseCall hcommand

theorem canonical_addLines {number : Nat} {ls : List (List Char)} (hd : d.script.Canonical)
    (h : d.addLines number ls = .ok d') : d'.script.Canonical := by
  induction ls generalizing d number with
  | nil =>
      cases h
      exact hd
  | cons line ls ih =>
      unfold addLines at h
      split at h
      · cases h
      · next next hline => exact ih (canonical_addLine hd hline) h

end Draft

/-- What the assembler accepts is canonical. -/
theorem canonical_of_assemble {aliases : Aliases} {source : String} {script : Script}
    (h : assemble aliases source = .ok script) : script.Canonical := by
  obtain ⟨draft, hdraft, hpure⟩ := Except.bind_eq_ok.mp h
  cases hpure
  have hempty : Script.Canonical {} := ⟨Nat.zero_le _, fun _ hr => by cases hr⟩
  exact Draft.canonical_addLines hempty hdraft

end Assembly

end CallScript
