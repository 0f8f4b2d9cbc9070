import CallScript.Cli.Files
import CallScript.Cli.Load
import CallScript.Proofs.Assembly.Sizes
import Mathlib.Control.Monad.Basic

/-!
# Text and binary scripts

A file holds a script as text or in its binary form. Text that can be assembled never begins with the
magic, so a file is always taken for what it is. What is assembled from a text can be counted in 64 bits,
so it is read back from the file it was saved to.
-/

namespace CallScript

/-! ## Text in UTF-8 -/

namespace Bytes

theorem toByteArray_ofText (text : String) : (ofText text).toByteArray = text.toByteArray := by
  have hlist : (String.ofList text.toList).toByteArray = text.toList.utf8Encode := String.toByteArray_ofList
  rw [String.ofList_toList] at hlist
  exact hlist.symm

theorem toText?_eq_some {data : Bytes} {text : String} : data.toText? = some text ↔ data = ofText text := by
  have hdata : (⟨data.toArray⟩ : ByteArray) = data.toByteArray := ByteArray.ext List.data_toByteArray.symm
  rw [toText?, hdata, String.fromUTF8?]
  constructor
  · intro h
    split at h
    · next hvalid =>
      cases h
      exact List.toByteArray_inj.mp (toByteArray_ofText (.fromUTF8 data.toByteArray hvalid)).symm
    · cases h
  · rintro rfl
    have hvalid : (ofText text).toByteArray.IsValidUTF8 := toByteArray_ofText text ▸ text.isValidUTF8
    rw [dif_pos hvalid]
    exact congrArg some (String.toByteArray_inj.mp (toByteArray_ofText text))

theorem length_ofText (text : String) : (ofText text).length = Text.size text.toList := by
  unfold ofText
  induction text.toList with
  | nil => rfl
  | cons c rest ih =>
      rw [List.flatMap_cons, List.length_append, ih, String.length_utf8EncodeChar, Text.size_cons]

/-- The first character is known from the bytes. -/
theorem eq_of_utf8EncodeChar_append {c d : Char} {rest rest' : Bytes}
    (h : String.utf8EncodeChar c ++ rest = String.utf8EncodeChar d ++ rest') : c = d := by
  have hread (c : Char) (rest : Bytes) : (String.utf8EncodeChar c ++ rest).toByteArray.utf8DecodeChar? 0 = some c := by
    rw [List.toByteArray_append]
    exact ByteArray.utf8DecodeChar?_utf8EncodeChar_append
  exact Option.some.inj (by rw [← hread c rest, h, hread d rest'])

end Bytes

/-! ## The magic -/

theorem Script.isBinary_toBytes (s : Script) : isBinary s.toBytes = true := by
  simp [isBinary, toBytes, List.append_assoc]

theorem Script.isBinary_of_ofBytes {data : Bytes} {s : Script} (h : ofBytes data = .ok s) : isBinary data = true := by
  rw [(ofBytes_eq_ok.mp h).2]
  exact isBinary_toBytes s

/-- A text in the place of a binary script begins with the first character of the magic. -/
theorem Script.head_of_isBinary {source : String} (h : isBinary (Bytes.ofText source) = true) :
    ∃ rest, source.toList = 'O' :: rest := by
  obtain ⟨back, hback⟩ := List.isPrefixOf_iff_prefix.mp h
  unfold Bytes.ofText at hback
  cases htext : source.toList with
  | nil =>
      rw [htext] at hback
      cases hback
  | cons c rest =>
      rw [htext, List.flatMap_cons] at hback
      have hmagic : magic = String.utf8EncodeChar 'O' ++ Bytes.ofText "PCHN" := by decide
      rw [hmagic, List.append_assoc] at hback
      rw [Bytes.eq_of_utf8EncodeChar_append hback]
      exact ⟨rest, rfl⟩

namespace Text

theorem endLine_concat {c : Char} (hc : c ≠ '\r') (before : List Char) :
    ∃ line, endLine (before ++ [c]) = c :: line := by
  unfold endLine
  split
  · next rest heq =>
    cases before with
    | nil =>
        cases heq
        exact absurd rfl hc
    | cons last before =>
        cases heq
        exact ⟨before.reverse, by simp⟩
  · exact ⟨before.reverse, by simp⟩

theorem linesFrom_concat {c : Char} (hc : c ≠ '\r') (before text : List Char) :
    ∃ line ls, linesFrom (before ++ [c]) text = (c :: line) :: ls := by
  induction text generalizing before with
  | nil =>
      rw [linesFrom, if_neg (by simp)]
      exact ⟨before.reverse, [], by simp⟩
  | cons d text ih =>
      rw [linesFrom]
      split
      · obtain ⟨line, hline⟩ := endLine_concat hc before
        exact ⟨line, linesFrom [] text, by rw [hline]⟩
      · exact ih (d :: before)

end Text

namespace Assembly

variable {d d' : Draft}

theorem head_of_addTokens {first : Token} {rest : List Token} (h : d.addTokens (first :: rest) = .ok d') :
    first.text.toList.head? ≠ some 'O' := by
  obtain ⟨htokens, -⟩ | ⟨_, _, _, _, htokens, hslot, -⟩ | ⟨_, _, _, _, _, htokens, halias, -⟩ |
    ⟨_, _, kind, _, htokens, -, -, hkind, -⟩ := Draft.addTokens_cases h
  · cases htokens
  · cases htokens
    rw [hslot]
    decide
  · cases htokens
    rw [halias]
    decide
  · cases htokens
    have hmnemonic : kind.mnemonic = first.text := by simpa using List.find?_some hkind
    rw [← hmnemonic]
    cases kind <;> decide

theorem addLine_magic_ne_ok (rest : List Char) : d.addLine ('O' :: rest) ≠ .ok d' := by
  intro h
  obtain ⟨tokens, htokens, h⟩ := Except.bind_eq_ok.mp h
  obtain ⟨text, later, rfl⟩ := (tokenize_eq_ok.mp htokens).of_cons (by decide)
  exact head_of_addTokens h (by simp)

/-- A text that begins like the magic cannot be assembled: no line begins with such a word. -/
theorem not_isBinary_of_assemble {aliases : Aliases} {source : String} {script : Script}
    (h : assemble aliases source = .ok script) : Script.isBinary (Bytes.ofText source) = false := by
  refine Bool.eq_false_iff.mpr fun hbinary => ?_
  obtain ⟨rest, hsource⟩ := Script.head_of_isBinary hbinary
  obtain ⟨line, ls, hlines⟩ := @Text.linesFrom_concat 'O' (by decide) [] rest
  have hfirst : Text.lines source = ('O' :: line) :: ls := by
    rw [Text.lines, hsource, Text.linesFrom, if_neg (by decide)]
    exact hlines
  obtain ⟨draft, hdraft, -⟩ := Except.bind_eq_ok.mp h
  rw [hfirst, Draft.addLines] at hdraft
  split at hdraft
  · cases hdraft
  · next hline => exact addLine_magic_ne_ok line hline

end Assembly

/-! ## Files -/

namespace Cli

namespace Files

theorem isDirectory_put {files : Files} {name : List String} (h : files.isDirectory name = true)
    (target : List String) (data : Bytes) : (files.put target data).isDirectory name = true := by
  simp only [isDirectory, put, Bool.or_eq_true, List.any_eq_true] at h ⊢
  rcases h with h | ⟨file, hmem, hfile⟩
  · exact .inl h
  · right
    by_cases htarget : file.1 = target
    · exact ⟨(target, data), List.mem_cons_self .., htarget ▸ hfile⟩
    · exact ⟨file, List.mem_cons_of_mem _ (List.mem_filter.mpr ⟨hmem, by simpa using htarget⟩), hfile⟩

theorem enter_eq_ok {files : Files} {name : List String} :
    files.enter name = .ok () ↔ files.isDirectory name = true := by
  unfold enter
  split
  · simp [*]
  · split <;> simp [*]

theorem follow_put {files : Files} {place names name : List String} (h : files.follow place names = .ok name)
    (target : List String) (data : Bytes) : (files.put target data).follow place names = .ok name := by
  induction names generalizing place with
  | nil => exact h
  | cons first rest ih =>
      obtain ⟨_, henter, h⟩ := Except.bind_eq_ok.mp h
      have henter' := enter_eq_ok.mpr (isDirectory_put (enter_eq_ok.mp henter) target data)
      rw [follow, henter', Except.ok_bind]
      split at h
      · next hhere =>
        rw [if_pos hhere]
        exact ih h
      · next hhere =>
        rw [if_neg hhere]
        split at h
        · next hup =>
          rw [if_pos hup]
          exact ih h
        · next hup =>
          rw [if_neg hup]
          exact ih h

theorem locate_put {files : Files} {path : String} {name : List String} (h : files.locate path = .ok name)
    (target : List String) (data : Bytes) : (files.put target data).locate path = .ok name := by
  unfold locate at h ⊢
  split at h
  · cases h
  · exact follow_put h target data
  · exact follow_put h target data

/-- What was written is read. -/
theorem read_of_write {files files' : Files} {path : String} {data : Bytes}
    (h : files.write path data = .ok files') : files'.read path = .ok data := by
  obtain ⟨name, hname, h⟩ := Except.bind_eq_ok.mp h
  split at h
  · cases h
  · cases h
    have hcontent : (files.put name data).content? name = some data := by simp [content?, put]
    rw [read, locate_put hname, Except.ok_bind, hcontent]
    rfl

end Files

section Runs

variable {aliases : Assembly.Aliases} {path source : String} {data : Bytes} {script : Script}
variable {least : Level} {t t' : Trace}

theorem runOn_loadScript_binary (hread : t.files.read path = .ok script.toBytes) (hfits : script.Fits) :
    (loadScript aliases path).runOn least t = (.ok (.ok script), t) := by
  have hload : Script.ofBytes script.toBytes = .ok script := Script.ofBytes_eq_ok.mpr ⟨hfits, rfl⟩
  simp only [loadScript, Shell.read, bind, Shell.bind, Shell.runOn, hread, Script.isBinary_toBytes, ↓reduceIte, hload]
  rfl

theorem runOn_loadScript_text (hread : t.files.read path = .ok data) (hbinary : Script.isBinary data = false)
    (hsource : data.toText? = some source) (h : Assembly.assemble aliases source = .ok script) :
    (loadScript aliases path).runOn least t = (.ok (.ok script), t) := by
  simp only [loadScript, Shell.read, bind, Shell.bind, Shell.runOn, hread, hbinary, Bool.false_eq_true, ↓reduceIte,
    hsource, assembleSource, h]
  rfl

theorem read_of_saveScript (h : (saveScript script path).runOn least t = (.ok (.ok ()), t')) :
    t'.files.read path = .ok script.toBytes := by
  simp only [saveScript, Shell.write, bind, Shell.bind, Shell.runOn] at h
  split at h
  · next files hwrite =>
    cases h
    exact Files.read_of_write hwrite
  · cases h

end Runs

/-- Text that can be assembled is never taken for a binary script, and what it says is loaded from it and from
the file it is saved to, there with any aliases. A text in memory has fewer than 2⁶⁴ bytes, so the counts of
the binary form can hold what it says. -/
theorem forms_apart :
    (∀ (aliases : Assembly.Aliases) (data : Bytes) (source : String) (script : Script),
      data.toText? = some source → Assembly.assemble aliases source = .ok script →
        Script.isBinary data = false ∧ (∀ other, Script.ofBytes data ≠ .ok other) ∧
          (∀ (path : String) (least : Level) (t : Trace), t.files.read path = .ok data →
            (loadScript aliases path).runOn least t = (.ok (.ok script), t)) ∧
          (data.length < 2 ^ 64 → ∀ (path : String) (least : Level) (t t' : Trace),
            (saveScript script path).runOn least t = (.ok (.ok ()), t') →
              ∀ (aliases' : Assembly.Aliases) (least' : Level),
                (loadScript aliases' path).runOn least' t' = (.ok (.ok script), t'))) ∧
      ∀ script : Script, Script.isBinary script.toBytes = true := by
  refine ⟨fun aliases data source script hsource h => ?_, Script.isBinary_toBytes⟩
  have hdata := Bytes.toText?_eq_some.mp hsource
  have hbinary : Script.isBinary data = false := by
    rw [hdata]
    exact Assembly.not_isBinary_of_assemble h
  refine ⟨hbinary, fun other hother => ?_, fun path least t hread => ?_, fun hlength path least t t' hsave => ?_⟩
  · rw [Script.isBinary_of_ofBytes hother] at hbinary
    cases hbinary
  · exact runOn_loadScript_text hread hbinary hsource h
  · rw [hdata, Bytes.length_ofText] at hlength
    intro aliases' least'
    exact runOn_loadScript_binary (read_of_saveScript hsave) (Assembly.fits_of_assemble h hlength)

/-- A text that names an alias and holds the magic in a slot. The script is saved outside of the working
directory, and is loaded from there without the alias. -/
theorem forms_apart_alias_and_magic :
    let aliases : Assembly.Aliases := .ofList [("é", .ofLowByte 7)]
    let source := "slot str \"OPCHN\" # é\ncall @é fallback"
    let script : Script :=
      ⟨[(Command.make .call (.zero 4) (.ofLowByte 7) [] .discard 0).toRecord], [Bytes.ofText "OPCHN"]⟩
    let before : Trace := { files := { here := ["home"] } }
    let saved : Trace := { files := { here := ["home"], contents := [(["a.opc"], script.toBytes)] } }
    Assembly.assemble aliases source = .ok script ∧ Script.isBinary (Bytes.ofText source) = false ∧
      (saveScript script "/a.opc").runOn .info before = (.ok (.ok ()), saved) ∧
      (loadScript .empty "/a.opc").runOn .info saved = (.ok (.ok script), saved) := by
  intro aliases source script before saved
  have htext : (Bytes.ofText source).toText? = some source := Bytes.toText?_eq_some.mpr rfl
  have hassemble : Assembly.assemble aliases source = .ok script := by decide +kernel
  have hsave : (saveScript script "/a.opc").runOn .info before = (.ok (.ok ()), saved) := by rfl
  obtain ⟨hbinary, -, -, hload⟩ := forms_apart.1 aliases _ source script htext hassemble
  exact ⟨hassemble, hbinary, hsave, hload (by decide) "/a.opc" .info _ saved hsave .empty .info⟩

end Cli

end CallScript
