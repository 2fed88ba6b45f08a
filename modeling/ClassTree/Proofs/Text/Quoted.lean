import Mathlib.Tactic.IntervalCases
import ClassTree.Text.Quoted

namespace ClassTree.Text

def digitValue (c : Char) : Nat :=
  if c.toNat < 'a'.toNat then c.toNat - '0'.toNat else c.toNat - 'a'.toNat + 10

def hexValue (digits : List Char) : Nat :=
  digits.foldl (fun value digit => value * 16 + digitValue digit) 0

theorem hexValue_concat (digits : List Char) (digit : Char) :
    hexValue (digits ++ [digit]) = hexValue digits * 16 + digitValue digit := by
  simp [hexValue]

theorem digitValue_digitChar {n : Nat} (h : n < 16) : digitValue n.digitChar = n := by
  interval_cases n <;> rfl

theorem hexValue_toDigits (n : Nat) : hexValue (Nat.toDigits 16 n) = n := by
  induction n using Nat.strong_induction_on with
  | _ n ih =>
    rw [Nat.toDigits_eq_if (by decide)]
    split
    case isTrue h => exact (Nat.zero_add _).trans (digitValue_digitChar h)
    case isFalse h =>
      rw [hexValue_concat, ih (n / 16) (by omega),
        digitValue_digitChar (Nat.mod_lt _ (by decide))]
      omega

/-- Zeros on the left do not change the value. -/
theorem hexValue_hex (width n : Nat) : hexValue (hex width n).toList = n := by
  rw [hex, padLeft, String.toList_ofList]
  induction width - (Nat.toDigits 16 n).length with
  | zero => exact hexValue_toDigits n
  | succ count ih => exact ih

theorem hex_inj {width n m : Nat} (h : hex width n = hex width m) : n = m := by
  rw [← hexValue_hex width n, h, hexValue_hex]

def hexDigits : List Char :=
  ['0', '1', '2', '3', '4', '5', '6', '7', '8', '9', 'a', 'b', 'c', 'd', 'e', 'f']

theorem mem_hexDigits_of_mem_toDigits {c : Char} (n : Nat) (hm : c ∈ Nat.toDigits 16 n) :
    c ∈ hexDigits := by
  have hdigit : ∀ {m : Nat}, m < 16 → m.digitChar ∈ hexDigits := by
    intro m h
    interval_cases m <;> decide
  induction n using Nat.strong_induction_on with
  | _ n ih =>
    rw [Nat.toDigits_eq_if (by decide)] at hm
    split at hm
    case isTrue h =>
      obtain rfl := List.mem_singleton.mp hm
      exact hdigit h
    case isFalse h =>
      rcases List.mem_append.mp hm with hm | hm
      · exact ih (n / 16) (by omega) hm
      · obtain rfl := List.mem_singleton.mp hm
        exact hdigit (Nat.mod_lt _ (by decide))

theorem mem_hexDigits_of_mem_hex {c : Char} {width n : Nat} (hm : c ∈ (hex width n).toList) :
    c ∈ hexDigits := by
  rw [hex, padLeft, String.toList_ofList] at hm
  rcases List.mem_append.mp hm with hm | hm
  · obtain rfl := List.eq_of_mem_replicate hm
    decide
  · exact mem_hexDigits_of_mem_toDigits n hm

/-- Reads one character of a quoted text, and what is left behind it. -/
def unquoteChar : List Char → Option (Char × List Char)
  | [] => none
  | '\\' :: '0' :: rest => some ('\x00', rest)
  | '\\' :: 't' :: rest => some ('\t', rest)
  | '\\' :: 'n' :: rest => some ('\n', rest)
  | '\\' :: 'r' :: rest => some ('\r', rest)
  | '\\' :: '"' :: rest => some ('"', rest)
  | '\\' :: '\\' :: rest => some ('\\', rest)
  | '\\' :: 'u' :: '\x7b' :: rest =>
    some (.ofNat (hexValue (rest.takeWhile (· != '\x7d'))), (rest.dropWhile (· != '\x7d')).tail)
  | c :: rest => some (c, rest)

theorem unquoteChar_codePoint (c : Char) (rest : List Char) :
    unquoteChar ((codePoint c).toList ++ rest) = some (c, rest) := by
  have hdigits : ∀ d ∈ (hex 1 c.toNat).toList, (d != '\x7d') = true := by
    intro d hd
    have hclosing : '\x7d' ∉ hexDigits := by decide
    exact bne_iff_ne.mpr fun he => hclosing (he ▸ mem_hexDigits_of_mem_hex hd)
  have hshape : (codePoint c).toList ++ rest =
      '\\' :: 'u' :: '\x7b' :: ((hex 1 c.toNat).toList ++ '\x7d' :: rest) := by
    simp [codePoint]
  rw [hshape, unquoteChar, List.takeWhile_append_of_pos hdigits,
    List.dropWhile_append_of_pos hdigits]
  simp [hexValue_hex, Char.ofNat_toNat]

theorem unquoteChar_of_ne {c : Char} (h : c ≠ '\\') (rest : List Char) :
    unquoteChar (c :: rest) = some (c, rest) := by
  unfold unquoteChar
  split <;> simp_all

theorem unquoteChar_quotedChar (c : Char) (rest : List Char) :
    unquoteChar ((quotedChar c).toList ++ rest) = some (c, rest) := by
  unfold quotedChar
  split
  case h_7 hbackslash =>
    have hplain : unquoteChar (c.toString.toList ++ rest) = some (c, rest) := by
      rw [Char.toString_eq_singleton, String.toList_singleton]
      exact unquoteChar_of_ne hbackslash rest
    split
    · exact hplain
    · split
      · exact unquoteChar_codePoint c rest
      · exact hplain
  all_goals rfl

/-- What is made of the elements of a list one after the other tells the elements, if it tells the
first one from what can come behind it. -/
theorem flatMap_inj {α β : Type} {f : α → List β} {P : List β → Prop} {xs ys : List α} (hend : P [])
    (hstart : ∀ a s, P (f a ++ s)) (hne : ∀ a, f a ≠ [])
    (hfirst : ∀ a ∈ xs, ∀ b ∈ ys, ∀ s t, P s → P t → f a ++ s = f b ++ t → a = b ∧ s = t)
    (h : xs.flatMap f = ys.flatMap f) : xs = ys := by
  have hrest : ∀ l : List α, P (l.flatMap f) := by
    intro l
    cases l with
    | nil => exact hend
    | cons a l => exact hstart a _
  induction xs generalizing ys with
  | nil =>
    cases ys with
    | nil => rfl
    | cons b ys => exact absurd (List.append_eq_nil_iff.mp h.symm).1 (hne b)
  | cons a xs ih =>
    cases ys with
    | nil => exact absurd (List.append_eq_nil_iff.mp h).1 (hne a)
    | cons b ys =>
      obtain ⟨rfl, htail⟩ :=
        hfirst a List.mem_cons_self b List.mem_cons_self _ _ (hrest xs) (hrest ys) h
      rw [ih (fun a ha b hb => hfirst a (.tail _ ha) b (.tail _ hb)) htail]

theorem toList_quoted (text : String) : (quoted text).toList =
    '"' :: (text.toList.flatMap (fun c => (quotedChar c).toList) ++ ['"']) := by
  simp [quoted, String.toList_join, List.flatMap_map]

/-- Different texts have different quotations. -/
theorem quoted_inj {text other : String} : quoted text = quoted other ↔ text = other := by
  refine ⟨fun h => ?_, congrArg quoted⟩
  have hbody : text.toList.flatMap (fun c => (quotedChar c).toList) =
      other.toList.flatMap (fun c => (quotedChar c).toList) := by
    have hlists := congrArg String.toList h
    rw [toList_quoted, toList_quoted] at hlists
    exact List.append_cancel_right (List.cons.inj hlists).2
  have hread := unquoteChar_quotedChar
  refine String.toList_inj.mp (flatMap_inj (P := fun _ => True) trivial (fun _ _ => trivial)
    (fun c hnil => ?_) (fun a _ b _ s t _ _ he => ?_) hbody)
  · have := hread c []
    rw [hnil] at this
    cases this
  · have := hread a s
    rw [he, hread] at this
    cases this
    exact ⟨rfl, rfl⟩

end ClassTree.Text
