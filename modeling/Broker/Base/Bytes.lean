import Mathlib.Data.List.Induction
import Mathlib.Data.List.TakeWhile
import Mathlib.Data.Nat.Digits.Defs

/-!
# Byte strings, C strings and decimal text

Byte sequences stand for `std::string`, `char[]` and raw memory alike. A C-string
conversion reads up to the first NUL of the memory it is given; the bounded form
fails when that memory holds none. Numbers are printed as `operator<<` prints an
unsigned integer, with `std::setw` and a `'0'` fill on the left.
-/

namespace Broker.Base

/-- A byte sequence; `std::string` and `char[]` of the source. -/
abbrev Bytes := List UInt8

/-- The bytes of an ASCII literal. -/
def ascii (cs : List Char) : Bytes := cs.map fun c ↦ UInt8.ofNat c.toNat

/-- The bytes before the first NUL: what a C-string conversion takes from memory. -/
def cString (mem : Bytes) : Bytes := mem.takeWhile (· ≠ 0)

/-- A C-string conversion that fails when the modelled memory holds no NUL. -/
def readCString (mem : Bytes) : Option Bytes :=
  if 0 ∈ mem then some (cString mem) else none

/-- The `std::string` built from `strnlen(buf, n)` bytes of `buf`. -/
def strnString (buf : Bytes) (n : Nat) : Bytes := cString (buf.take n)

/-- The `n` bytes `strncpy` writes: the characters of a string that fit, then NULs. -/
def strncpy (src : Bytes) (n : Nat) : Bytes := src.take n ++ List.replicate (n - src.length) 0

/-- A window of memory, or failure when it leaves the modelled bytes. -/
def readBytes (mem : Bytes) (start n : Nat) : Option Bytes :=
  if start + n ≤ mem.length then some ((mem.drop start).take n) else none

/-- Big-endian value of a byte window; `ntohl` and `ntohs` after a `memcpy`. -/
def ntoh (bytes : Bytes) : Nat := bytes.foldl (fun n b ↦ n * 256 + b.toNat) 0

/-- One decimal digit. -/
def digit (d : Nat) : UInt8 := UInt8.ofNat (48 + d)

/-- The text `operator<<` gives an unsigned integer. -/
def decimal (n : Nat) : Bytes :=
  if n = 0 then [digit 0] else (Nat.digits 10 n).reverse.map digit

/-- `std::setw(w)` with `std::setfill('0')` applied to the next field. -/
def setw (w : Nat) (field : Bytes) : Bytes :=
  List.replicate (w - field.length) (digit 0) ++ field

/-- A NUL inside the first part hides everything after that part. -/
theorem cString_append_of_mem {a : Bytes} (b : Bytes) (h : (0 : UInt8) ∈ a) :
    cString (a ++ b) = cString a := by
  induction a with
  | nil => simp at h
  | cons x a ih =>
    by_cases hx : x = 0
    · simp [cString, hx]
    · have ha : (0 : UInt8) ∈ a := by simpa [Ne.symm hx] using h
      have ht := ih ha
      unfold cString at ht ⊢
      rw [List.cons_append, List.takeWhile_cons_of_pos (by simp [hx]),
        List.takeWhile_cons_of_pos (by simp [hx]), ht]

/-- A first part without a NUL is read whole, and reading goes on behind it. -/
theorem cString_append_of_notMem {a : Bytes} (b : Bytes) (h : (0 : UInt8) ∉ a) :
    cString (a ++ b) = a ++ cString b := by
  apply List.takeWhile_append_of_pos
  intro x hx
  simp only [decide_eq_true_eq, ne_eq]
  rintro rfl
  exact h hx

/-- A copy has the width of its field. -/
@[simp] theorem length_strncpy (src : Bytes) (n : Nat) : (strncpy src n).length = n := by
  rw [strncpy, List.length_append, List.length_take, List.length_replicate]
  omega

/-- A copied string with a NUL behind its field is read back as far as it fits. -/
theorem cString_strncpy {src : Bytes} (h : (0 : UInt8) ∉ src) (n : Nat) (behind : Bytes) :
    cString (strncpy src n ++ 0 :: behind) = src.take n := by
  have ht : (0 : UInt8) ∉ src.take n := fun hm ↦ h (List.mem_of_mem_take hm)
  rw [strncpy, List.append_assoc, cString_append_of_notMem _ ht, ← List.append_nil (src.take n)]
  congr 1
  · rw [List.append_nil]
  · cases n - src.length with
    | zero => rfl
    | succ k => rfl

/-- A read inside the first part does not see what follows it. -/
theorem readBytes_append {a : Bytes} (b : Bytes) {start n : Nat} (h : start + n ≤ a.length) :
    readBytes (a ++ b) start n = some ((a.drop start).take n) := by
  have hd : start - a.length = 0 := by omega
  rw [readBytes, if_pos (by rw [List.length_append]; omega), List.drop_append, hd,
    List.drop_zero, List.take_append_of_le_length (by rw [List.length_drop]; omega)]

/-- Appending one byte shifts a big-endian value by one radix place. -/
theorem ntoh_append_singleton (bytes : Bytes) (b : UInt8) :
    ntoh (bytes ++ [b]) = ntoh bytes * 256 + b.toNat := by
  simp [ntoh]

/-- A window of bytes has a value of its width. -/
theorem ntoh_lt (bytes : Bytes) : ntoh bytes < 256 ^ bytes.length := by
  induction bytes using List.reverseRecOn with
  | nil => exact Nat.one_pos
  | append_singleton bytes b ih =>
    have hb := b.toNat_lt
    rw [ntoh_append_singleton, List.length_append, List.length_singleton, Nat.pow_succ]
    omega

private theorem getLast?_append_decimal (text : Bytes) (n : Nat) :
    (text ++ decimal n).getLast? = some (digit (n % 10)) := by
  have hd : (decimal n).getLast? = some (digit (n % 10)) := by
    unfold decimal
    split
    · next hn => simp [hn]
    · next hn =>
      have hd := Nat.digits_def' (b := 10) (by omega) (Nat.pos_of_ne_zero hn)
      simp [hd]
  rw [List.getLast?_append, hd]
  rfl

private theorem digit_injective {a b : Nat} (ha : a < 10) (hb : b < 10) (h : digit a = digit b) :
    a = b := by
  have hn := congrArg UInt8.toNat h
  simp only [digit, UInt8.toNat_ofNat'] at hn
  omega

/-- Texts that end in numbers with different last digits are different. -/
theorem append_decimal_ne (a b : Bytes) {m n : Nat} (h : m % 10 ≠ n % 10) :
    a ++ decimal m ≠ b ++ decimal n := by
  intro he
  have hl := congrArg List.getLast? he
  rw [getLast?_append_decimal, getLast?_append_decimal] at hl
  exact h (digit_injective (by omega) (by omega) (Option.some.inj hl))

/-- The window that ends with the byte behind `front`. -/
theorem readBytes_append_cons (front : Bytes) (b : UInt8) (rest : Bytes) {start n : Nat}
    (h : start + n = front.length + 1) (hs : start ≤ front.length) :
    readBytes (front ++ b :: rest) start n = some (front.drop start ++ [b]) := by
  have hl : (front.drop start ++ [b]).length = n := by
    rw [List.length_append, List.length_drop, List.length_singleton]
    omega
  rw [readBytes, if_pos (by rw [List.length_append, List.length_cons]; omega),
    List.drop_append_of_le_length hs, List.append_cons, ← hl, List.take_left]

end Broker.Base
