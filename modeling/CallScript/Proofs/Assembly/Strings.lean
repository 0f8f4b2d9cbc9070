import CallScript.Proofs.Assembly.Quoting
import CallScript.Proofs.Assembly.Sizes

/-!
# Quoted texts

A quoted text is made of items: a character, an escape, or a byte given by two digits. All that is made of
items is read, as the bytes of its items. Three things more are read that are no items, and nothing else.
-/

namespace CallScript

/-! ## Bytes behind a backslash -/

namespace Hex

theorem byte?_singleton {c : Char} {byte : UInt8} :
    byte? [c] = some byte ↔ ∃ d, digit? c = some d ∧ byte = UInt8.ofNat d := by
  by_cases hsign : c = '+'
  · subst hsign
    have hplus : digit? '+' = none := by decide
    simp [byte?, Text.unsign, hplus]
  · cases hd : digit? c <;> simp [byte?, unsign_cons hsign, hd, eq_comm]

theorem byte?_pair {a b : Char} {byte : UInt8} :
    byte? [a, b] = some byte ↔
      (∃ high low, digit? a = some high ∧ digit? b = some low ∧ byte = UInt8.ofNat (high * 16 + low)) ∨
        a = '+' ∧ ∃ d, digit? b = some d ∧ byte = UInt8.ofNat d := by
  by_cases hsign : a = '+'
  · subst hsign
    have hplus : digit? '+' = none := by decide
    cases hb : digit? b <;> simp [byte?, Text.unsign, hplus, hb, eq_comm]
  · cases ha : digit? a <;> cases hb : digit? b <;>
      simp [byte?, unsign_cons hsign, ha, hb, hsign, eq_comm]

end Hex

namespace Assembly

/-! ## Items and slips -/

/-- The characters that may stand behind a backslash, with the bytes that they are for. -/
def namedEscapes : List (Char × UInt8) :=
  [('n', 0x0a), ('t', 0x09), ('r', 0x0d), ('0', 0x00), ('\\', 0x5c), ('"', 0x22)]

/-- What may stand between quotes, and its bytes. -/
inductive Item : List Char → Bytes → Prop
  | plain {c : Char} : c ≠ '"' → c ≠ '\\' → Item [c] (String.utf8EncodeChar c)
  | escape {c : Char} {b : UInt8} : (c, b) ∈ namedEscapes → Item ['\\', c] [b]
  | digits {a b : Char} {high low : Nat} : Hex.digit? a = some high → Hex.digit? b = some low →
    Item ['\\', 'x', a, b] [UInt8.ofNat (high * 16 + low)]

/-- Items, one after the other. -/
inductive Items : List Char → Bytes → Prop
  | nil : Items [] []
  | cons {text rest : List Char} {bytes more : Bytes} :
    Item text bytes → Items rest more → Items (text ++ rest) (bytes ++ more)

/-- What is read between quotes, in front of `rest`, although it is no item: a quote without a backslash, a
digit behind a sign, and a digit with nothing behind it. -/
inductive Slip : (text rest : List Char) → Bytes → Prop
  | quote (rest : List Char) : Slip ['"'] rest [0x22]
  | signed {c : Char} {d : Nat} (rest : List Char) : Hex.digit? c = some d →
    Slip ['\\', 'x', '+', c] rest [UInt8.ofNat d]
  | lone {c : Char} {d : Nat} : Hex.digit? c = some d → Slip ['\\', 'x', c] [] [UInt8.ofNat d]

/-- Items and slips, one after the other, at least one of them a slip. -/
inductive Slips : List Char → Bytes → Prop
  | last {text rest : List Char} {bytes more : Bytes} :
    Slip text rest bytes → Items rest more → Slips (text ++ rest) (bytes ++ more)
  | slip {text rest : List Char} {bytes more : Bytes} :
    Slip text rest bytes → Slips rest more → Slips (text ++ rest) (bytes ++ more)
  | item {text rest : List Char} {bytes more : Bytes} :
    Item text bytes → Slips rest more → Slips (text ++ rest) (bytes ++ more)

/-! ## Items and slips are read -/

variable {text text' rest rest' : List Char} {bytes bytes' more : Bytes}

theorem Item.unescape_append (h : Item text bytes) (rest : List Char) :
    unescape (text ++ rest) = (bytes ++ ·) <$> unescape rest := by
  cases h with
  | plain _ hslash => exact unescape_cons hslash rest
  | escape hb =>
      simp only [namedEscapes, List.mem_cons, Prod.mk.injEq, List.not_mem_nil, or_false] at hb
      rcases hb with ⟨rfl, rfl⟩ | ⟨rfl, rfl⟩ | ⟨rfl, rfl⟩ | ⟨rfl, rfl⟩ | ⟨rfl, rfl⟩ | ⟨rfl, rfl⟩ <;> rfl
  | digits ha hb =>
      have hbyte := Hex.byte?_pair.mpr (.inl ⟨_, _, ha, hb, rfl⟩)
      simp only [List.cons_append, List.nil_append, unescape, hbyte]

theorem Slip.unescape_append (h : Slip text rest bytes) :
    unescape (text ++ rest) = (bytes ++ ·) <$> unescape rest := by
  cases h with
  | quote => exact unescape_cons (by decide) rest
  | signed _ hc =>
      have hbyte := Hex.byte?_pair.mpr (.inr ⟨rfl, _, hc, rfl⟩)
      simp only [List.cons_append, List.nil_append, unescape, hbyte]
  | lone hc =>
      have hbyte := Hex.byte?_singleton.mpr ⟨_, hc, rfl⟩
      simp only [List.append_nil, unescape, hbyte]
      rfl

theorem Items.unescape (h : Items text bytes) : unescape text = .ok bytes := by
  induction h with
  | nil => rfl
  | cons hitem _ ih =>
      rw [hitem.unescape_append, ih]
      rfl

theorem Slips.unescape (h : Slips text bytes) : unescape text = .ok bytes := by
  induction h with
  | last hslip hitems =>
      rw [hslip.unescape_append, hitems.unescape]
      rfl
  | slip hslip _ ih =>
      rw [hslip.unescape_append, ih]
      rfl
  | item hitem _ ih =>
      rw [hitem.unescape_append, ih]
      rfl

/-! ## Nothing else is read -/

theorem Item.cons_or (h : Item text bytes) (hrest : Items rest more ∨ Slips rest more) :
    Items (text ++ rest) (bytes ++ more) ∨ Slips (text ++ rest) (bytes ++ more) :=
  hrest.imp (.cons h) (.item h)

theorem Slip.cons_or (h : Slip text rest bytes) (hrest : Items rest more ∨ Slips rest more) :
    Slips (text ++ rest) (bytes ++ more) :=
  hrest.elim (.last h) (.slip h)

theorem items_or_slips_of_unescape (h : unescape text = .ok bytes) : Items text bytes ∨ Slips text bytes := by
  fun_induction Assembly.unescape text generalizing bytes with
  | case1 =>
      cases h
      exact .inl .nil
  | case2 | case10 | case12 | case13 => cases h
  | case3 rest ih | case4 rest ih | case5 rest ih | case6 rest ih | case7 rest ih | case8 rest ih =>
      obtain ⟨more, hrest, rfl⟩ := Except.map_eq_ok.mp h
      exact (Item.escape (by decide)).cons_or (ih hrest)
  | case9 a b rest byte hbyte ih =>
      obtain ⟨more, hrest, rfl⟩ := Except.map_eq_ok.mp h
      rcases Hex.byte?_pair.mp hbyte with ⟨high, low, ha, hb, rfl⟩ | ⟨rfl, d, hb, rfl⟩
      · exact (Item.digits ha hb).cons_or (ih hrest)
      · exact .inr ((Slip.signed rest hb).cons_or (ih hrest))
  | case11 digits hshort byte hbyte =>
      cases h
      -- Two digits and more are read as a pair, and none are refused.
      rcases digits with _ | ⟨c, _ | ⟨b, rest⟩⟩
      · cases hbyte
      · obtain ⟨d, hd, rfl⟩ := Hex.byte?_singleton.mp hbyte
        exact .inr (.last (.lone hd) .nil)
      · exact (hshort c b rest rfl).elim
  | case14 c rest hdangling _ _ _ _ _ _ _ _ hescape ih =>
      obtain ⟨more, hrest, rfl⟩ := Except.map_eq_ok.mp h
      have hslash : c ≠ '\\' := by
        intro hc
        cases rest with
        | nil => exact hdangling hc rfl
        | cons d rest => exact hescape d rest hc rfl
      by_cases hquote : c = '"'
      · subst hquote
        exact .inr ((Slip.quote rest).cons_or (ih hrest))
      · exact (Item.plain hquote hslash).cons_or (ih hrest)

theorem unescape_eq_ok_iff : unescape text = .ok bytes ↔ Items text bytes ∨ Slips text bytes :=
  ⟨items_or_slips_of_unescape, fun h => h.elim Items.unescape Slips.unescape⟩

/-! ## Slips are no items -/

theorem not_mem_namedEscapes_x (b : UInt8) : ('x', b) ∉ namedEscapes := by
  simp [namedEscapes]

/-- Where an item ends is seen from the item. -/
theorem Item.append_inj (h : Item text bytes) (h' : Item text' bytes')
    (heq : text ++ rest = text' ++ rest') : rest = rest' := by
  -- What kind of item it is shows in its first two characters.
  cases h <;> cases h' <;> grind [not_mem_namedEscapes_x]

theorem Slip.append_ne (h : Slip text rest bytes) (h' : Item text' bytes') :
    text ++ rest ≠ text' ++ rest' := by
  have hplus : Hex.digit? '+' = none := by decide
  cases h <;> cases h' <;> grind [not_mem_namedEscapes_x]

theorem Slip.not_items (h : Slip text rest bytes) : ¬ Items (text ++ rest) bytes' := by
  intro hitems
  generalize heq : text ++ rest = whole at hitems
  cases hitems with
  | nil => cases h <;> cases heq
  | cons hitem _ => exact h.append_ne hitem heq

theorem Item.items_of_append (h : Item text bytes) (hitems : Items (text ++ rest) bytes') :
    ∃ more, Items rest more := by
  generalize heq : text ++ rest = whole at hitems
  cases hitems with
  | nil => cases h <;> cases heq
  | cons hitem hrest =>
      cases h.append_inj hitem heq
      exact ⟨_, hrest⟩

theorem Slips.not_items (h : Slips text bytes) : ¬ Items text bytes' := by
  induction h generalizing bytes' with
  | last hslip _ => exact hslip.not_items
  | slip hslip _ _ => exact hslip.not_items
  | item hitem _ ih =>
      intro hitems
      obtain ⟨more, hrest⟩ := hitem.items_of_append hitems
      exact ih hrest

/-! ## Literals -/

/-- A text in quotes, and what stands between them. -/
def Quoted (Body : List Char → Bytes → Prop) (text : String) (bytes : Bytes) : Prop :=
  ∃ body, text.toList = '"' :: (body ++ ['"']) ∧ Body body bytes

theorem parseString_eq_ok_iff {text : String} {bytes : Bytes} :
    parseString text = .ok bytes ↔ Quoted Items text bytes ∨ Quoted Slips text bytes := by
  constructor
  · intro h
    unfold parseString at h
    split at h
    · next body hbody =>
      have htext := unquote?_eq_some.mp hbody
      exact (unescape_eq_ok_iff.mp h).imp (fun hitems => ⟨body, htext, hitems⟩) fun hslips => ⟨body, htext, hslips⟩
    · cases h
  · rintro (⟨body, htext, hbody⟩ | ⟨body, htext, hbody⟩)
    · rw [parseString, unquote?_eq_some.mpr htext]
      exact hbody.unescape
    · rw [parseString, unquote?_eq_some.mpr htext]
      exact hbody.unescape

theorem not_quoted_items_of_slips {text : String} {bytes bytes' : Bytes} (h : Quoted Slips text bytes) :
    ¬ Quoted Items text bytes' := by
  rintro ⟨body', htext', hitems⟩
  obtain ⟨body, htext, hslips⟩ := h
  have hbody : body' = body := by
    rw [htext'] at htext
    exact List.append_cancel_right (List.cons.inj htext).2
  exact hslips.not_items (hbody ▸ hitems)

/-- Which texts are read as literals. Everything between quotes that is made of items is read, as the bytes of
its items; besides, only what has slips in it, which is never made of items. So a text is read if and only if
it is made of items, except where there are slips. -/
theorem parseString_accepts (text : String) :
    (∀ bytes, parseString text = .ok bytes ↔ Quoted Items text bytes ∨ Quoted Slips text bytes) ∧
    ((∀ bytes, parseString text = .ok bytes ↔ Quoted Items text bytes) ↔ ¬ ∃ bytes, Quoted Slips text bytes) := by
  refine ⟨fun bytes => parseString_eq_ok_iff, ?_, ?_⟩
  · rintro h ⟨bytes, hslips⟩
    exact not_quoted_items_of_slips hslips ((h bytes).mp (parseString_eq_ok_iff.mpr (.inr hslips)))
  · intro h bytes
    rw [parseString_eq_ok_iff]
    exact or_iff_left fun hslips => h ⟨bytes, hslips⟩

/-- A sign in the place of a digit is read, and is no item. -/
theorem parseString_accepts_sign :
    ¬ (parseString "\"\\x+f\"" = .ok [0x0f] ↔ Quoted Items "\"\\x+f\"" [0x0f]) := by
  have hslips : Quoted Slips "\"\\x+f\"" [0x0f] :=
    ⟨['\\', 'x', '+', 'f'], by decide, .last (.signed [] (by decide)) .nil⟩
  have hread : parseString "\"\\x+f\"" = .ok [0x0f] := parseString_eq_ok_iff.mpr (.inr hslips)
  exact fun h => not_quoted_items_of_slips hslips (h.mp hread)

end Assembly

end CallScript
