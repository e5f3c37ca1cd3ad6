import ShaderCost.Token.Basic

/-! # Kinds and values

A lexeme is known by the name of its kind and the text it carries (`Lexeme.eq_of_kindName_value`).
The name tells the constructor (`rankOf_kindName`), for no two kinds have the same one, and for
keywords and symbols it tells all. Of the others the text tells the rest: texts are known by their
bytes, and the errors of the scanner by their messages.
-/

namespace ShaderCost

theorem Bytes.ofString_inj {s s' : String} (h : ofString s = ofString s') : s = s' := by
  have hbytes : s.toList.utf8Encode = s'.toList.utf8Encode := congrArg List.toByteArray h
  rw [← String.toByteArray_ofList, ← String.toByteArray_ofList, String.toByteArray_inj,
    String.ofList_toList, String.ofList_toList] at hbytes
  exact hbytes

/-- Texts by which a list can be searched are different. -/
theorem injective_of_find? {α : Type} (all : List α) {text : α → String}
    (h : ∀ a, all.find? (text · == text a) = some a) : Function.Injective text := by
  intro a b hab
  have hfound := h a
  rw [hab, h b] at hfound
  exact (Option.some.inj hfound).symm

theorem Keyword.text_inj : Function.Injective text := by
  refine injective_of_find? all fun word => ?_
  cases word <;> decide +kernel

theorem Symbol.text_inj : Function.Injective text := by
  refine injective_of_find? all fun mark => ?_
  cases mark <;> decide +kernel

theorem Byte.toNat_toChar (b : UInt8) : (toChar b).toNat = b.toNat := by
  have hvalid : b.toNat.isValidChar := Or.inl (Nat.lt_trans b.toNat_lt (by decide))
  unfold toChar Char.ofNat
  rw [dif_pos hvalid]
  rfl

namespace LexError

/-- How the message begins. -/
def opening : LexError → String
  | unexpected _ => "unexpected "
  | reservedName _ => "identifiers"
  | malformedHex => "malformed h"
  | malformedExponent => "malformed e"
  | invalidSuffix => "invalid suf"

theorem take_toList_append {a : String} {n : Nat} (h : n ≤ a.toList.length) (b : String) :
    (a ++ b).toList.take n = a.toList.take n := by
  rw [String.toList_append, List.take_append_of_le_length h]

theorem take_message (e : LexError) : e.message.toList.take 11 = e.opening.toList := by
  cases e with
  | unexpected byte =>
    have hlong : 11 ≤ "unexpected character ".toList.length ∧
        "unexpected character ".toList.take 11 = "unexpected ".toList := by decide +kernel
    exact (take_toList_append hlong.1 _).trans hlong.2
  | reservedName name =>
    have hlong : 11 ≤ "identifiers containing __ are reserved: ".toList.length ∧
        "identifiers containing __ are reserved: ".toList.take 11 = "identifiers".toList := by
      decide +kernel
    exact (take_toList_append hlong.1 name).trans hlong.2
  | _ => decide +kernel

theorem message_inj {e e' : LexError} (h : e.message = e'.message) : e = e' := by
  have hopening : e.opening = e'.opening := by
    rw [← String.toList_inj, ← take_message, h, take_message]
  cases e <;> cases e' <;> simp [opening] at hopening
  case unexpected.unexpected b b' =>
    have hchar : Byte.toChar b = Byte.toChar b' :=
      String.singleton_inj.1 ((String.append_right_inj _).1 h)
    have hnat : b.toNat = b'.toNat := by rw [← Byte.toNat_toChar, hchar, Byte.toNat_toChar]
    rw [UInt8.toNat_inj.1 hnat]
  case reservedName.reservedName name name' => rw [(String.append_right_inj _).1 h]
  all_goals rfl

end LexError

namespace Lexeme

/-- The constructor of a lexeme, by number. -/
def rank : Lexeme → Nat
  | bad _ => 0
  | endOfInput => 1
  | int _ => 2
  | uint _ => 3
  | float _ => 4
  | bool _ => 5
  | name _ => 6
  | directive _ => 7
  | keyword _ => 8
  | symbol _ => 9

/-- The rank that the name of a kind stands for. -/
def rankOf (kind : String) : Nat :=
  match ["error", "EOF", "int", "uint", "float", "true", "identifier", "directive"].idxOf? kind with
  | some rank => rank
  | none => if kind == "false" then 5 else if (Keyword.ofText? kind).isSome then 8 else 9

theorem rankOf_kindName (l : Lexeme) : rankOf l.kindName = l.rank := by
  cases l with
  | bool b => cases b <;> decide +kernel
  | keyword word => cases word <;> decide +kernel
  | symbol mark => cases mark <;> decide +kernel
  | _ => rfl

theorem eq_of_kindName_value {a b : Lexeme} (hkind : a.kindName = b.kindName)
    (hvalue : a.value = b.value) : a = b := by
  have hrank : a.rank = b.rank := by rw [← rankOf_kindName, hkind, rankOf_kindName]
  cases a <;> cases b <;> try cases hrank
  case bad.bad => rw [LexError.message_inj (Bytes.ofString_inj hvalue)]
  case endOfInput.endOfInput => rfl
  case int.int => rw [Bytes.ofString_inj hvalue]
  case uint.uint => rw [Bytes.ofString_inj hvalue]
  case float.float => rw [Bytes.ofString_inj hvalue]
  case bool.bool b b' =>
    cases b <;> cases b'
    · rfl
    · exact absurd hkind (by decide)
    · exact absurd hkind (by decide)
    · rfl
  case name.name => rw [Bytes.ofString_inj hvalue]
  case directive.directive text text' => exact congrArg directive hvalue
  case keyword.keyword => rw [Keyword.text_inj hkind]
  case symbol.symbol => rw [Symbol.text_inj hkind]

end Lexeme

/-- What a token shows apart from its place: the name of its kind, and its value. -/
def Token.shown (token : Token) : String × Bytes := (token.lexeme.kindName, token.lexeme.value)

theorem map_shown_eq_of_lexeme {tokens tokens' : List Token}
    (h : tokens'.map Token.lexeme = tokens.map Token.lexeme) :
    tokens'.map Token.shown = tokens.map Token.shown := by
  have hshown := congrArg (List.map fun lexeme : Lexeme => (lexeme.kindName, lexeme.value)) h
  rw [List.map_map, List.map_map] at hshown
  exact hshown

/-- Tokens that show the same have the same lexemes. -/
theorem map_lexeme_eq_of_shown {tokens tokens' : List Token}
    (h : tokens'.map Token.shown = tokens.map Token.shown) :
    tokens'.map Token.lexeme = tokens.map Token.lexeme := by
  induction tokens generalizing tokens' with
  | nil =>
    rw [List.map_eq_nil_iff.1 h]
  | cons token tokens ih =>
    cases tokens' with
    | nil => cases h
    | cons token' tokens' =>
      obtain ⟨hhead, htail⟩ := List.cons.inj h
      obtain ⟨hkind, hvalue⟩ := Prod.mk.inj hhead
      rw [List.map_cons, List.map_cons, ih htail, Lexeme.eq_of_kindName_value hkind hvalue]

end ShaderCost
