/-!
# Text

Text is a list of characters, so that every law about it is an induction on
lists. This module holds what the rest of the library cuts text with: blanks
and trimming, words, lines, the cut at a first character, and the width in
bytes that offsets are counted in.
-/

namespace ScopedStyle

abbrev Text := List Char

namespace Text

def byteSize (t : Text) : Nat := t.foldl (fun n c => n + c.utf8Size) 0

theorem byteSize_cons (c : Char) (t : Text) : byteSize (c :: t) = c.utf8Size + byteSize t := by
  have key : ∀ (t : Text) (n m : Nat),
      t.foldl (fun n c => n + c.utf8Size) (n + m) = n + t.foldl (fun n c => n + c.utf8Size) m := by
    intro t
    induction t with
    | nil => exact fun n m => rfl
    | cons d t ih =>
      intro n m
      rw [List.foldl_cons, List.foldl_cons, Nat.add_assoc, ih]
  exact key t c.utf8Size 0 ▸ by rw [byteSize, List.foldl_cons, Nat.zero_add, Nat.add_zero]

theorem byteSize_append (s t : Text) : byteSize (s ++ t) = byteSize s + byteSize t := by
  induction s with
  | nil => rw [List.nil_append, show byteSize [] = 0 from rfl, Nat.zero_add]
  | cons c s ih => rw [List.cons_append, byteSize_cons, byteSize_cons, ih, Nat.add_assoc]

theorem byteSize_eq_zero {t : Text} : byteSize t = 0 ↔ t = [] := by
  cases t with
  | nil => simp [byteSize]
  | cons c t =>
    have hpos := c.utf8Size_pos
    rw [byteSize_cons]
    simp
    omega

def run (p : Char → Bool) (t : Text) : Nat := (t.takeWhile p).length

def distance? (c : Char) (t : Text) : Option Nat :=
  if t.contains c then some (run (· != c) t) else none

/-- The property `White_Space` of the Unicode standard. -/
def isBlank (c : Char) : Bool :=
  let n := c.toNat
  (0x9 ≤ n && n ≤ 0xd) || n == 0x20 || n == 0x85 || n == 0xa0 || n == 0x1680 ||
    (0x2000 ≤ n && n ≤ 0x200a) || n == 0x2028 || n == 0x2029 || n == 0x202f ||
    n == 0x205f || n == 0x3000

def trimLeft (t : Text) : Text := t.dropWhile isBlank

def trimRight (t : Text) : Text := (t.reverse.dropWhile isBlank).reverse

def trim (t : Text) : Text := trimRight (trimLeft t)

theorem length_dropWhile_le (p : Char → Bool) (t : Text) : (t.dropWhile p).length ≤ t.length :=
  (List.dropWhile_sublist p).length_le

theorem length_trim_le (t : Text) : (trim t).length ≤ t.length := by
  have h := length_dropWhile_le isBlank (trimLeft t).reverse
  have h' := length_dropWhile_le isBlank t
  simp only [List.length_reverse] at h
  simp only [trim, trimRight, List.length_reverse]
  exact Nat.le_trans h h'

def words (t : Text) : List Text :=
  match _h : t.dropWhile isBlank with
  | [] => []
  | c :: rest =>
      (c :: rest.takeWhile (!isBlank ·)) :: words (rest.dropWhile (!isBlank ·))
termination_by t.length
decreasing_by
  have h₁ := length_dropWhile_le (!isBlank ·) rest
  have h₂ := length_dropWhile_le isBlank t
  simp only [_h, List.length_cons] at h₂
  omega

/-- The lines of a text, given the reversed start of the first one. A line ends at a line feed and
loses one carriage return right before it; a last line that nothing ends keeps its own. -/
def linesAfter (started : Text) : Text → List Text
  | [] => if started.isEmpty then [] else [started.reverse]
  | '\n' :: rest =>
      (match started with
        | '\r' :: kept => kept.reverse
        | kept => kept.reverse) :: linesAfter [] rest
  | c :: rest => linesAfter (c :: started) rest

def lines (t : Text) : List Text := linesAfter [] t

def cut? (c : Char) (t : Text) : Option (Text × Text) :=
  match t.dropWhile (· != c) with
  | [] => none
  | _ :: rest => some (t.takeWhile (· != c), rest)

theorem cut?_shorter {c : Char} {t before rest : Text} (h : cut? c t = some (before, rest)) :
    rest.length < t.length := by
  unfold cut? at h
  have hd := length_dropWhile_le (· != c) t
  split at h
  · simp at h
  · rename_i he
    simp only [Option.some.injEq, Prod.mk.injEq] at h
    rw [he, h.2, List.length_cons] at hd
    omega

def endsWith (c : Char) (t : Text) : Bool := t.getLast? == some c

def ofNat (n : Nat) : Text := Nat.toDigits 10 n

def ofInt (n : Int) : Text := if n < 0 then '-' :: ofNat n.natAbs else ofNat n.natAbs

/-- ASCII letters in lower case, all else as it is. -/
def lower (t : Text) : Text := t.map Char.toLower

theorem toNat_lower (t : Text) :
    (lower t).map Char.toNat =
      t.map fun c => if 'A' ≤ c ∧ c ≤ 'Z' then c.toNat + 32 else c.toNat := by
  rw [lower, List.map_map]
  refine List.map_congr_left fun c _ => ?_
  rw [Function.comp_apply]
  by_cases h : 'A' ≤ c ∧ c ≤ 'Z'
  · have hle : c.val.toNat ≤ 90 := UInt32.le_iff_toNat_le.1 h.2
    have hmove : (c.val + 32).toNat = c.val.toNat + 32 := by
      rw [UInt32.toNat_add, show (32 : UInt32).toNat = 32 from rfl]
      exact Nat.mod_eq_of_lt (by omega)
    have hlower : c.toLower.val = c.val + 32 := congrArg Char.val (dif_pos h)
    rw [if_pos h, Char.toNat, hlower, hmove, Char.toNat]
  · have hsame : c.toLower = c := dif_neg h
    rw [if_neg h, hsame]

end Text
end ScopedStyle
