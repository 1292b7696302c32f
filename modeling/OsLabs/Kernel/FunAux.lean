import Mathlib.Data.Nat.Basic
import Mathlib.Logic.Function.Basic
import Mathlib.Tactic.IntervalCases

/-! # The name of a semaphore (`fun_aux.c`)

`sem_open` names the lock of a semaphore by its number. `intToString` writes the digits from the last
one to the first and turns them around in place; `intLength` counts them, and the sign. For all numbers
that have a negative, `intToString_text`: what is written is the decimal text of the number and the end
of the string, `intLength` is its length, nothing behind is touched, and `atoi` (`ulib.c`) reads a
number that is not negative back. -/

namespace OsLabs

namespace Kernel

namespace FunAux

/-! ## The functions of `fun_aux.c` and `atoi` -/

/-- The characters from a pointer on. -/
abbrev Chars := Nat → UInt8

/-- The loop of `intToString` over the digits, from the position `i`. -/
def putDigits (num : Nat) (str : Chars) (i : Nat) : Chars × Nat :=
  let str := Function.update str i (UInt8.ofNat (num % 10 + 48))
  if num / 10 > 0 then putDigits (num / 10) str (i + 1) else (str, i + 1)
termination_by num

/-- The loop of `intToString` that turns the first `i` characters around, for `n` rounds from the
position `j`. -/
def turnAround (i : Nat) : Nat → Nat → Chars → Chars
  | 0, _, str => str
  | n + 1, j, str =>
      let temp := str j
      turnAround i n (j + 1)
        (Function.update (Function.update str j (str (i - j - 1))) (i - j - 1) temp)

/-- `intToString`; its length is never looked at. -/
def intToString (num : Int) (str : Chars) (_len : Nat) : Chars :=
  let isNegative : Bool := num < 0
  let (str, i) := putDigits (if num < 0 then -num else num).toNat str 0
  let (str, i) := if isNegative then (Function.update str i 45, i + 1) else (str, i)
  let str := Function.update str i 0
  turnAround i (i / 2) 0 str

/-- The loop of `intLength` over the digits. -/
def countDigits (num length : Nat) : Nat :=
  if num / 10 > 0 then countDigits (num / 10) (length + 1) else length + 1
termination_by num

/-- `intLength`. -/
def intLength (num : Int) : Nat :=
  if num < 0 then countDigits (-num).toNat 1 else countDigits num.toNat 0

/-- The loop of `atoi`; `none` when it goes on after the rounds it was given. -/
def atoiFrom : Nat → Chars → Nat → BitVec 32 → Option (BitVec 32)
  | 0, _, _, _ => none
  | fuel + 1, s, i, n =>
      if 48 ≤ s i ∧ s i ≤ 57 then atoiFrom fuel s (i + 1) (n * 10 + BitVec.ofNat 32 (s i).toNat - 48)
      else some n

/-- `atoi`. -/
def atoi (fuel : Nat) (s : Chars) : Option (BitVec 32) := atoiFrom fuel s 0 0

/-! ## Texts in memory -/

/-- The text `l` written from the position `i` on. -/
def putText (str : Chars) (i : Nat) (l : List UInt8) : Chars := fun k =>
  if i ≤ k then (l[k - i]?).getD (str k) else str k

/-- The characters of a number. -/
def decimalText (num : Int) : List UInt8 := (toString num).toList.map fun c => UInt8.ofNat c.toNat

/-- The characters of the digits of a number. -/
def digits (num : Nat) : List UInt8 := (Nat.toDigits 10 num).map fun c => UInt8.ofNat c.toNat

section Texts

variable {str : Chars} {i k : Nat} {a : UInt8} {l l' : List UInt8}

/-- Writing no characters leaves the string alone. -/
@[simp] theorem putText_nil (str : Chars) (i : Nat) : putText str i [] = str := by
  funext k
  simp [putText]

/-- Writing characters one after the other. -/
theorem putText_cons (str : Chars) (i : Nat) (a : UInt8) (l : List UInt8) :
    putText str i (a :: l) = putText (Function.update str i a) (i + 1) l := by
  funext k
  unfold putText
  rcases Nat.lt_trichotomy k i with hlt | rfl | hgt
  · rw [if_neg (by omega), if_neg (by omega), Function.update_of_ne (by omega)]
  · rw [if_pos (Nat.le_refl _), if_neg (by omega), Nat.sub_self, Function.update_self]
    rfl
  · obtain ⟨d, rfl⟩ : ∃ d, k = i + 1 + d := ⟨k - (i + 1), by omega⟩
    have hsub : i + 1 + d - i = d + 1 := by omega
    rw [if_pos (by omega), if_pos (by omega), hsub, Nat.add_sub_cancel_left, List.getElem?_cons_succ,
      Function.update_of_ne (by omega)]

/-- Writing two texts in a row is writing one behind the other. -/
theorem putText_append (str : Chars) (i : Nat) (l l' : List UInt8) :
    putText str i (l ++ l') = putText (putText str i l) (i + l.length) l' := by
  induction l generalizing str i with
  | nil => simp
  | cons a l ih =>
      rw [List.cons_append, putText_cons, ih, putText_cons, List.length_cons]
      congr 1
      omega

/-- One more character. -/
theorem update_putText (str : Chars) (i : Nat) (l : List UInt8) (a : UInt8) :
    Function.update (putText str i l) (i + l.length) a = putText str i (l ++ [a]) := by
  rw [putText_append, putText_cons, putText_nil]

/-- The characters written are there. -/
theorem putText_get (str : Chars) (i : Nat) (l : List UInt8) {k : Nat} (hk : k < l.length) :
    putText str i l (i + k) = l[k] := by
  unfold putText
  rw [if_pos (Nat.le_add_right i k), Nat.add_sub_cancel_left, List.getElem?_eq_getElem hk]
  rfl

/-- Behind the text nothing changes. -/
theorem putText_after (str : Chars) (i : Nat) (l : List UInt8) (hk : i + l.length ≤ k) :
    putText str i l k = str k := by
  unfold putText
  rw [if_pos (by omega), List.getElem?_eq_none (by omega)]
  rfl

end Texts

/-! ## The digits -/

/-- A single digit. -/
theorem digits_of_lt {num : Nat} (h : num < 10) : digits num = [UInt8.ofNat (num + 48)] := by
  unfold digits
  rw [Nat.toDigits_of_lt_base h]
  interval_cases num <;> rfl

/-- A number of more digits ends in its last one. -/
theorem digits_of_ge {num : Nat} (h : 10 ≤ num) :
    digits num = digits (num / 10) ++ [UInt8.ofNat (num % 10 + 48)] := by
  have hlast := digits_of_lt (Nat.mod_lt num (by decide : 0 < 10))
  unfold digits at hlast ⊢
  rw [Nat.toDigits_of_lt_base (Nat.mod_lt num (by decide : 0 < 10))] at hlast
  rw [Nat.toDigits_of_base_le (by decide) h, List.map_append, hlast]

/-- The digits are written in reverse. -/
theorem putDigits_run (num : Nat) (str : Chars) (i : Nat) :
    putDigits num str i = (putText str i (digits num).reverse, i + (digits num).length) := by
  induction num using Nat.strong_induction_on generalizing str i with
  | _ num ih =>
      rw [putDigits]
      by_cases hmore : num / 10 > 0
      · have hge : 10 ≤ num := by omega
        rw [if_pos hmore, ih (num / 10) (by omega), digits_of_ge hge, List.reverse_append,
          List.length_append, List.reverse_singleton, List.singleton_append, putText_cons]
        congr 1
        rw [List.length_singleton]
        omega
      · have hmod : num % 10 = num := Nat.mod_eq_of_lt (by omega)
        rw [if_neg hmore, hmod, digits_of_lt (by omega), List.reverse_singleton, putText_cons, putText_nil]
        rfl

/-- The first loop counts the digits. -/
theorem countDigits_run (num length : Nat) : countDigits num length = length + (digits num).length := by
  induction num using Nat.strong_induction_on generalizing length with
  | _ num ih =>
      rw [countDigits]
      by_cases hmore : num / 10 > 0
      · have hge : 10 ≤ num := by omega
        rw [if_pos hmore, ih (num / 10) (by omega), digits_of_ge hge, List.length_append,
          List.length_singleton]
        omega
      · rw [if_neg hmore, digits_of_lt (by omega)]
        rfl

/-! ## Turning around -/

/-- The rounds that are left turn around what is between the positions reached. -/
theorem turnAround_run (i : Nat) {n j : Nat} (hj : j + n = i / 2) (str : Chars) (k : Nat) :
    turnAround i n j str k = if j ≤ k ∧ k + j < i then str (i - 1 - k) else str k := by
  induction n generalizing j str with
  | zero =>
      show str k = _
      split_ifs with hk
      · -- only the character in the middle is left
        congr 1
        omega
      · rfl
  | succ n ih =>
      rw [turnAround, ih (by omega)]
      have hne : i - j - 1 ≠ j := by omega
      by_cases hfirst : k = j
      · subst hfirst
        rw [if_neg (by omega), if_pos (by omega), Function.update_of_ne (Ne.symm hne), Function.update_self]
        congr 1
        omega
      · by_cases hlast : k = i - j - 1
        · subst hlast
          rw [if_neg (by omega), if_pos (by omega), Function.update_self]
          congr 1
          omega
        · by_cases hk : j ≤ k ∧ k + j < i
          · rw [if_pos hk, if_pos (by omega), Function.update_of_ne (by omega), Function.update_of_ne (by omega)]
          · rw [if_neg hk, if_neg (by omega), Function.update_of_ne (by omega), Function.update_of_ne (by omega)]

/-- A text in front of the end of the string is turned around. -/
theorem turnAround_putText (str : Chars) (l : List UInt8) (a : UInt8) :
    turnAround l.length (l.length / 2) 0 (putText str 0 (l ++ [a])) = putText str 0 (l.reverse ++ [a]) := by
  funext k
  rw [turnAround_run _ (by omega)]
  have hlen : (l ++ [a]).length = (l.reverse ++ [a]).length := by simp
  rcases Nat.lt_trichotomy k l.length with hlt | rfl | hgt
  · rw [if_pos (by omega)]
    have hleft := putText_get str 0 (l ++ [a]) (k := l.length - 1 - k) (by simp; omega)
    have hright := putText_get str 0 (l.reverse ++ [a]) (k := k) (by simp; omega)
    rw [Nat.zero_add] at hleft hright
    rw [hleft, hright, List.getElem_append_left (by omega), List.getElem_append_left (by simpa using hlt),
      List.getElem_reverse]
  · rw [if_neg (by omega), ← Nat.zero_add l.length, ← update_putText, Function.update_self]
    rw [Nat.zero_add, ← List.length_reverse, ← Nat.zero_add l.reverse.length, ← update_putText,
      Function.update_self]
  · rw [if_neg (by omega), putText_after _ _ _ (by simp; omega), putText_after _ _ _ (by simp; omega)]

/-! ## Reading a number -/

/-- The digits of a number are characters between `'0'` and `'9'`. -/
theorem isDigit_of_mem_digits {num : Nat} {a : UInt8} (h : a ∈ digits num) : 48 ≤ a ∧ a ≤ 57 := by
  have hlast (d : Nat) (hd : d < 10) : 48 ≤ UInt8.ofNat (d + 48) ∧ UInt8.ofNat (d + 48) ≤ 57 := by
    interval_cases d <;> decide
  induction num using Nat.strong_induction_on generalizing a with
  | _ num ih =>
      by_cases hmore : 10 ≤ num
      · rw [digits_of_ge hmore, List.mem_append, List.mem_singleton] at h
        rcases h with h | rfl
        · exact ih (num / 10) (by omega) h
        · exact hlast _ (Nat.mod_lt num (by decide))
      · rw [digits_of_lt (by omega), List.mem_singleton] at h
        rw [h]
        exact hlast num (by omega)

/-- The value of digits read behind others. -/
def valueFrom (n : BitVec 32) (l : List UInt8) : BitVec 32 :=
  l.foldl (fun n a => n * 10 + BitVec.ofNat 32 a.toNat - 48) n

/-- Reading the digits back gives the number, modulo `2 ^ 32`. -/
theorem valueFrom_digits (num : Nat) : valueFrom 0 (digits num) = BitVec.ofNat 32 num := by
  have hlast (d : Nat) (hd : d < 10) : (UInt8.ofNat (d + 48)).toNat = d + 48 := by
    interval_cases d <;> rfl
  induction num using Nat.strong_induction_on with
  | _ num ih =>
      by_cases hmore : 10 ≤ num
      · have hdigit := hlast _ (Nat.mod_lt num (by decide : 0 < 10))
        have hvalue : num = num / 10 * 10 + num % 10 := by omega
        have hfront := ih (num / 10) (by omega)
        rw [digits_of_ge hmore]
        unfold valueFrom at hfront ⊢
        rw [List.foldl_append, hfront, List.foldl_cons, List.foldl_nil, hdigit]
        nth_rewrite 3 [hvalue]
        rw [BitVec.ofNat_add, BitVec.ofNat_add, BitVec.ofNat_mul, ← BitVec.add_assoc]
        exact BitVec.add_sub_cancel _ _
      · rw [digits_of_lt (by omega)]
        have hdigit := hlast num (by omega)
        unfold valueFrom
        rw [List.foldl_cons, List.foldl_nil, hdigit, BitVec.ofNat_add]
        show 0#32 * 10 + (BitVec.ofNat 32 num + 48) - 48 = _
        rw [BitVec.zero_mul, BitVec.zero_add]
        exact BitVec.add_sub_cancel _ _

/-- `atoi` reads the digits that are there. -/
theorem atoiFrom_run {s : Chars} {l : List UInt8} (hl : ∀ a ∈ l, 48 ≤ a ∧ a ≤ 57) {i fuel : Nat}
    (hs : ∀ k (hk : k < l.length), s (i + k) = l[k]) (hend : s (i + l.length) = 0)
    (hfuel : l.length < fuel) (n : BitVec 32) : atoiFrom fuel s i n = some (valueFrom n l) := by
  induction l generalizing i fuel n with
  | nil =>
      obtain ⟨fuel, rfl⟩ := Nat.exists_eq_succ_of_ne_zero (Nat.pos_iff_ne_zero.mp hfuel)
      rw [List.length_nil, Nat.add_zero] at hend
      rw [atoiFrom, hend, if_neg (by decide)]
      rfl
  | cons a l ih =>
      obtain ⟨fuel, rfl⟩ : ∃ m, fuel = m + 1 := ⟨fuel - 1, by rw [List.length_cons] at hfuel; omega⟩
      have hfirst : s i = a := hs 0 (Nat.zero_lt_succ _)
      rw [atoiFrom, hfirst, if_pos (hl a List.mem_cons_self)]
      refine ih (fun b hb => hl b (List.mem_cons_of_mem a hb)) (fun k hk => ?_) ?_ (by simpa using hfuel) _
      · have := hs (k + 1) (Nat.succ_lt_succ hk)
        rw [List.getElem_cons_succ] at this
        rw [← this]
        congr 1
        omega
      · rw [← hend, List.length_cons]
        congr 1
        omega

/-! ## Numbers -/

/-- A number that is not negative is written as its digits. -/
theorem decimalText_of_nonneg {num : Int} (h : 0 ≤ num) : decimalText num = digits num.toNat := by
  obtain ⟨n, rfl⟩ := Int.eq_ofNat_of_zero_le h
  unfold decimalText digits
  rw [Int.toNat_natCast]
  show List.map _ (Nat.repr n).toList = _
  rw [Nat.repr_eq_ofList_toDigits, String.toList_ofList]

/-- A negative number is written with a sign in front. -/
theorem decimalText_of_neg {num : Int} (h : num < 0) : decimalText num = 45 :: digits (-num).toNat := by
  obtain ⟨n, rfl⟩ := Int.eq_negSucc_of_lt_zero h
  unfold decimalText digits
  have hnum : (-Int.negSucc n).toNat = n + 1 := rfl
  rw [hnum]
  show List.map _ ("-" ++ Nat.repr (n + 1)).toList = _
  have hdigits : (Nat.repr (n + 1)).toList = Nat.toDigits 10 (n + 1) := by
    rw [Nat.repr_eq_ofList_toDigits, String.toList_ofList]
  rw [String.toList_append, List.map_append, hdigits]
  rfl

/-- **The name of a number.** For every number that has a negative, `intToString` writes its decimal
text and the end of the string, which is no more than twelve characters, and leaves the rest of the
memory as it was; `intLength` is the length of the text, and `atoi` reads a number that is not negative
back. -/
theorem intToString_text {num : Int} (hmin : -2 ^ 31 < num) (hmax : num < 2 ^ 31) (str : Chars)
    (len : Nat) :
    intToString num str len = putText str 0 (decimalText num ++ [0]) ∧
      intLength num = (decimalText num).length ∧ (decimalText num).length + 1 ≤ 12 ∧
      (0 ≤ num → ∀ fuel > intLength num,
        atoi fuel (intToString num str len) = some (BitVec.ofInt 32 num)) := by
  -- an `int` has ten digits at most
  have hshort (n : Nat) (hn : n < 2 ^ 31) : (digits n).length ≤ 10 := by
    unfold digits
    rw [List.length_map]
    exact (Nat.length_toDigits_le_iff (by decide) (by decide)).mpr (by omega)
  by_cases hneg : num < 0
  -- the sign is written behind the digits, and the turn brings it to the front
  · have htext := decimalText_of_neg hneg
    refine ⟨?_, ?_, ?_, fun hno => absurd hneg (by omega)⟩
    · have hturn := turnAround_putText str ((digits (-num).toNat).reverse ++ [45]) 0
      rw [List.length_append, List.length_reverse, List.length_singleton, List.reverse_append,
        List.reverse_reverse, List.reverse_singleton, List.singleton_append, ← htext] at hturn
      unfold intToString
      simp only [if_pos hneg, putDigits_run, decide_eq_true hneg, if_true]
      rw [← hturn, Nat.zero_add, ← update_putText str 0 _ 0, ← update_putText str 0 _ 45]
      simp only [List.length_append, List.length_reverse, List.length_singleton, Nat.zero_add]
    · unfold intLength
      rw [if_pos hneg, countDigits_run, htext, List.length_cons, Nat.add_comm]
    · rw [htext, List.length_cons]
      have := hshort (-num).toNat (by omega)
      omega
  · have htext := decimalText_of_nonneg (Int.not_lt.mp hneg)
    have hlength : intLength num = (decimalText num).length := by
      unfold intLength
      rw [if_neg hneg, countDigits_run, htext, Nat.zero_add]
    have hrun : intToString num str len = putText str 0 (decimalText num ++ [0]) := by
      have hturn := turnAround_putText str (digits num.toNat).reverse 0
      rw [List.length_reverse, List.reverse_reverse, ← htext] at hturn
      unfold intToString
      simp only [if_neg hneg, putDigits_run, decide_eq_false hneg, Bool.false_eq_true, if_false]
      rw [← htext, ← hturn, Nat.zero_add, ← update_putText str 0 _ 0]
      simp only [List.length_reverse, Nat.zero_add]
    refine ⟨hrun, hlength, ?_, fun hnum fuel hfuel => ?_⟩
    · rw [htext]
      have := hshort num.toNat (by omega)
      omega
    · rw [hlength] at hfuel
      have hvalue : valueFrom 0 (decimalText num) = BitVec.ofInt 32 num := by
        -- what `atoi` reads back are these digits
        obtain ⟨n, rfl⟩ := Int.eq_ofNat_of_zero_le hnum
        rw [htext, valueFrom_digits]
        rfl
      rw [hrun, ← hvalue]
      refine atoiFrom_run (fun a ha => ?_) (fun k hk => ?_) ?_ hfuel 0
      · rw [htext] at ha
        exact isDigit_of_mem_digits ha
      · rw [putText_get _ _ _ (by rw [List.length_append]; omega), List.getElem_append_left hk]
      · rw [← update_putText, Function.update_self]

/-- The smallest of these numbers takes all of the twelve characters. -/
theorem intToString_text_min :
    intToString (-2147483647) (fun _ => 5) 11 =
        putText (fun _ => 5) 0 (decimalText (-2147483647) ++ [0]) ∧
      intLength (-2147483647) = (decimalText (-2147483647)).length ∧
      (decimalText (-2147483647)).length + 1 ≤ 12 ∧
      ((0 : Int) ≤ -2147483647 → ∀ fuel > intLength (-2147483647),
        atoi fuel (intToString (-2147483647) (fun _ => 5) 11) = some (BitVec.ofInt 32 (-2147483647))) :=
  intToString_text (by decide) (by decide) _ _

end FunAux

end Kernel

end OsLabs
