import CallScript.Command
import CallScript.Proofs.Except

/-!
# Commands and their records

A command is read back from its record, and its arguments from its argument bytes.
-/

namespace CallScript

/-- The slot of an argument can be addressed. -/
def Arg.InRange : Arg → Prop
  | .static slot => slot.toNat < maxSlots
  | .dynamic slot => slot.toNat < maxSlots
  | .state => True

theorem Arg.ofByte?_dynamic_lt (n : Fin maxSlots) :
    ofByte? (toByte (.dynamic (UInt8.ofNat n))) = some (.dynamic (UInt8.ofNat n)) := by
  revert n
  decide

theorem Arg.ofByte?_static_lt (n : Fin maxSlots) :
    ofByte? (toByte (.static (UInt8.ofNat n))) = some (.static (UInt8.ofNat n)) := by
  revert n
  decide

theorem Arg.ofByte?_toByte {arg : Arg} (h : arg.InRange) : ofByte? arg.toByte = some arg := by
  cases arg with
  | static slot => simpa using Arg.ofByte?_static_lt ⟨slot.toNat, h⟩
  | dynamic slot => simpa using Arg.ofByte?_dynamic_lt ⟨slot.toNat, h⟩
  | state => rfl

namespace Command

theorem unpackArgs_map_toByte (args : List Arg) (h : ∀ arg ∈ args, arg.InRange) (count : Nat) :
    unpackArgs (args.map Arg.toByte ++ List.replicate count 0xff) = args := by
  induction args with
  | nil =>
      cases count with
      | zero => rfl
      | succ count => rfl
  | cons arg args ih =>
      obtain ⟨harg, hargs⟩ := List.forall_mem_cons.mp h
      simp only [List.map_cons, List.cons_append, unpackArgs, Arg.ofByte?_toByte harg, ih hargs]

theorem bytes_packArgs {args : List Arg} (h : args.length ≤ maxArgs) :
    (packArgs args).bytes = args.map Arg.toByte ++ List.replicate (maxArgs - args.length) 0xff := by
  have hmap : (args.map Arg.toByte).length ≤ maxArgs := by simpa using h
  simp only [packArgs]
  rw [List.take_append, List.take_of_length_le hmap, List.length_map, List.take_replicate]
  simp

/-- The arguments of a command are those it was put together from. -/
theorem args_make {args : List Arg} (h : ∀ arg ∈ args, arg.InRange) (hlength : args.length ≤ maxArgs)
    (kind : CallKind) (selector : Selector) (target : Address) (output : Output) (flags : UInt8) :
    (make kind selector target args output flags).args = args := by
  rw [Command.args, make, bytes_packArgs hlength]
  exact unpackArgs_map_toByte args h _

/-- A command is read back from its record. -/
theorem ofRecord_toRecord (c : Command) : ofRecord c.toRecord = c := by
  obtain ⟨⟨selector, hselector⟩, flags, ⟨args, hargs⟩, output, ⟨target, htarget⟩⟩ := c
  simp only [ofRecord, toRecord, FixedBytes.window, FixedBytes.byteAt, List.append_assoc,
    Command.mk.injEq, FixedBytes.mk.injEq, List.get_eq_getElem]
  refine ⟨?_, ?_, ?_, ?_, ?_⟩
  · rw [List.drop_zero, List.take_left' hselector]
  · simp [List.getElem_append_right, hselector]
  · simp [List.drop_append, List.take_append, hselector, hargs]
  · simp [List.getElem_append_right, hselector, hargs]
  · have hdrop : (selector ++ (flags :: args ++ output :: target)).drop 12 = target := by
      rw [← List.append_assoc, List.drop_append]
      simp [hselector, hargs]
    rw [List.cons_append, ← List.cons_append, hdrop, List.take_of_length_le (by omega)]

/-- A record is spelled out again by its command. -/
theorem toRecord_ofRecord (r : Record) : (ofRecord r).toRecord = r := by
  obtain ⟨bytes, hlength⟩ := r
  refine FixedBytes.ext ?_
  simp only [toRecord, ofRecord, FixedBytes.window, FixedBytes.byteAt, List.get_eq_getElem,
    List.drop_zero, List.append_assoc, List.cons_append]
  have htarget : (bytes.drop 12).take 20 = bytes.drop 12 := List.take_of_length_le (by simp [hlength])
  have hargs : (bytes.drop 5).take 6 ++ bytes.drop 11 = bytes.drop 5 := by
    have hsplit := List.take_append_drop 6 (bytes.drop 5)
    rwa [List.drop_drop] at hsplit
  rw [htarget, ← List.drop_eq_getElem_cons, hargs, ← List.drop_eq_getElem_cons, List.take_append_drop]

theorem decode_bytes (index : Nat) (r : Record) : decode index r.bytes = .ok (ofRecord r) := by
  have hrecord : FixedBytes.ofBytes? 32 r.bytes = some r := by
    simp [FixedBytes.ofBytes?, r.length_eq]
  simp only [decode, hrecord]

/-- Every record is a command. -/
theorem decodeFrom_records (records : List Record) (index : Nat) :
    decodeFrom index (records.map (·.bytes)) = .ok (records.map ofRecord) := by
  induction records generalizing index with
  | nil => rfl
  | cons r records ih => simp only [List.map_cons, decodeFrom, decode_bytes, ih, Except.ok_bind, Except.pure_eq_ok]

theorem decode_toRecord (index : Nat) (c : Command) : decode index c.toRecord.bytes = .ok c := by
  rw [decode_bytes, ofRecord_toRecord]

theorem decodeAll_singleton (c : Command) : decodeAll [c.toRecord.bytes] = .ok [c] := by
  simp [decodeAll, decodeFrom, decode_toRecord]

end Command

end CallScript
