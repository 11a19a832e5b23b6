import ApiLint.Json.Token
import Mathlib.Tactic.SplitIfs

/-!
# Escaped text

What is written between two quotes is read back, whatever characters it has: each of them becomes
one piece, plain or escaped, and an escaped one is read as itself. Of what ends a string or a line,
nothing is written as it is.
-/

namespace ApiLint.Json

namespace Quoted

theorem hexValue?_hexDigit {n : Nat} (h : n < 16) : hexValue? (hexDigit n) = some n := by
  decide +revert

theorem hexDigit_ne {n : Nat} (h : n < 16) :
    hexDigit n ≠ '"' ∧ hexDigit n ≠ '\\' ∧ hexDigit n ≠ '\n' := by
  decide +revert

theorem hexFour?_hexDigit {n : Nat} (h : n < 32) :
    hexFour? '0' '0' (hexDigit (n / 16)) (hexDigit (n % 16)) = some n := by
  have hhigh : hexValue? (hexDigit (n / 16)) = some (n / 16) := hexValue?_hexDigit (by omega)
  have hlow : hexValue? (hexDigit (n % 16)) = some (n % 16) := hexValue?_hexDigit (by omega)
  have hzero : hexValue? '0' = some 0 := by decide
  simp only [hexFour?, hhigh, hlow, hzero, Option.bind_eq_bind, Option.bind_some, Option.pure_def,
    Option.some.injEq]
  omega

theorem pieces?_marked {c : Char} (hc : c ≠ 'u') (r : List Char) :
    pieces? ('\\' :: c :: r) = do return .char (← simpleEscape? c) :: (← pieces? r) :=
  pieces?.eq_3 c r fun _ _ _ _ _ hcode _ => hc hcode

theorem pieces?_plain {c : Char} (hmark : c ≠ '\\') (hc : ¬ c.toNat < 32) (r : List Char) :
    pieces? (c :: r) = (pieces? r).map (.char c :: ·) := by
  have hplain := pieces?.eq_4 c r (fun _ _ _ _ _ h _ => hmark h) fun _ _ h _ => hmark h
  rw [hplain, if_neg (not_or.2 ⟨hc, hmark⟩)]
  cases pieces? r <;> rfl

/-- How a character is written: behind a backslash, by the digits of its code, or as it is. -/
inductive Escape (c : Char) : List Char → Prop where
  | simple {d : Char} (hd : simpleEscape? d = some c) (hcode : d ≠ 'u') (hline : d ≠ '\n') :
    Escape c ['\\', d]
  | coded (hc : c.toNat < 32) :
    Escape c ['\\', 'u', '0', '0', hexDigit (c.toNat / 16), hexDigit (c.toNat % 16)]
  | plain (hquote : c ≠ '"') (hmark : c ≠ '\\') (hc : ¬ c.toNat < 32) : Escape c [c]

theorem escape_spec (c : Char) : Escape c (escape c) := by
  unfold escape
  split_ifs with hquote hmark hb hf hn hr ht hc
  case pos | pos | pos | pos | pos | pos | pos =>
    subst c
    exact .simple rfl (by decide) (by decide)
  case pos => exact .coded hc
  case neg => exact .plain hquote hmark hc

namespace Escape

variable {c : Char} {s : List Char}

theorem pieces?_append (h : Escape c s) (r : List Char) :
    pieces? (s ++ r) = (pieces? r).map (.char c :: ·) := by
  cases h with
  | simple hd hcode hline =>
    rw [List.cons_append, List.singleton_append, pieces?_marked hcode, hd]
    cases pieces? r <;> rfl
  | coded hc =>
    have hchar : Piece.ofCode c.toNat = .char c := by
      rw [Piece.ofCode, if_neg (by omega), Char.ofNat_toNat]
    simp only [List.cons_append, List.nil_append, pieces?, hexFour?_hexDigit hc,
      Option.bind_eq_bind, Option.bind_some, hchar]
    cases pieces? r <;> rfl
  | plain hquote hmark hc =>
    rw [List.singleton_append, pieces?_plain hmark hc]

theorem line_not_mem (h : Escape c s) : '\n' ∉ s := by
  cases h with
  | simple hd hcode hline => simp [hline.symm]
  | coded hc =>
    obtain ⟨-, -, hhigh⟩ := hexDigit_ne (n := c.toNat / 16) (by omega)
    obtain ⟨-, -, hlow⟩ := hexDigit_ne (n := c.toNat % 16) (by omega)
    simp [hhigh.symm, hlow.symm]
  | plain hquote hmark hc =>
    rw [List.mem_singleton]
    rintro rfl
    exact hc (by decide)

end Escape

theorem pieces?_encode (s : List Char) : pieces? (encode s) = some (s.map .char) := by
  induction s with
  | nil => rfl
  | cons c s ih =>
    rw [encode, List.flatMap_cons, (escape_spec c).pieces?_append]
    exact congrArg (Option.map (Piece.char c :: ·)) ih

theorem spell?_chars (s : List Char) : spell? (s.map .char) = some s := by
  induction s with
  | nil => rfl
  | cons c s ih =>
    rw [List.map_cons, spell?, ih]
    rfl

theorem line_not_mem_encode (s : List Char) : '\n' ∉ encode s := by
  intro h
  obtain ⟨c, -, hc⟩ := List.mem_flatMap.1 h
  exact (escape_spec c).line_not_mem hc

end Quoted

namespace Token

theorem ofQuoted?_encode (s : List Char) :
    ofQuoted? (Quoted.encode s) = some (string (some (String.ofList s))) := by
  rw [ofQuoted?, Quoted.pieces?_encode, Option.map_some, Quoted.spell?_chars, Option.map_some]

variable {c : Char} {s : List Char}

theorem scanFrom?_escape (h : Quoted.Escape c s) (read : List Char) (found : List Token)
    (r : List Char) : scanFrom? (.quoted read) found (s ++ r) =
      scanFrom? (.quoted (s.reverse ++ read)) found r := by
  cases h with
  | simple hd hcode hline => rfl
  | coded hc =>
    obtain ⟨hquote, hmark, -⟩ := Quoted.hexDigit_ne (n := c.toNat / 16) (by omega)
    obtain ⟨hquote', hmark', -⟩ := Quoted.hexDigit_ne (n := c.toNat % 16) (by omega)
    simp [scanFrom?, step?, hquote, hmark, hquote', hmark']
  | plain hquote hmark hc => simp [scanFrom?, step?, hquote, hmark]

theorem scanFrom?_encode (s read : List Char) (found : List Token) (r : List Char) :
    scanFrom? (.quoted read) found (Quoted.encode s ++ r) =
      scanFrom? (.quoted ((Quoted.encode s).reverse ++ read)) found r := by
  induction s generalizing read with
  | nil => rfl
  | cons c s ih =>
    have hsplit : Quoted.encode (c :: s) = Quoted.escape c ++ Quoted.encode s := rfl
    rw [hsplit, List.append_assoc, scanFrom?_escape (Quoted.escape_spec c), ih,
      List.reverse_append, List.append_assoc]

theorem scanFrom?_quotedChars (s : String) (found : List Token) (r : List Char) :
    scanFrom? .between found ('"' :: (Quoted.encode s.toList ++ '"' :: r)) =
      scanFrom? .between (string (some s) :: found) r := by
  have hopen : step? .between '"' = some ([], .quoted []) := rfl
  have hclose : step? (.quoted (Quoted.encode s.toList).reverse) '"' =
      some ([string (some s)], .between) := by
    simp only [step?, if_true, List.reverse_reverse, ofQuoted?_encode, String.ofList_toList]
    rfl
  simp only [scanFrom?, hopen, List.reverse_nil, List.nil_append]
  rw [scanFrom?_encode, List.append_nil]
  simp only [scanFrom?, hclose, List.reverse_singleton, List.singleton_append]

end Token

end ApiLint.Json
