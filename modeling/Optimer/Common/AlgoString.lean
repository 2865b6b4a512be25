import Optimer.Lib.CText

/-! The string functions of `common/algo_string.h`. -/

namespace Optimer
open CText

def ltrim (s : List Char) : List Char := s.dropWhile isSpace

def rtrim (s : List Char) : List Char := (s.reverse.dropWhile isSpace).reverse

def trim (s : List Char) : List Char := ltrim (rtrim s)

/-- `split`; `std::getline` gives no field for a delimiter at the end. -/
def split (s : List Char) (delim : Char) : List (List Char) := fields delim s

/-- `string_to_double`. `atof` throws nothing, so that the default is never used. -/
def stringToDouble (str : List Char) (_defVal : ℚ) : Option ℚ := atof str

/-- `string_to_size_t`, with the default of no use as well. -/
def stringToSizeT (str : List Char) (_defVal : ℕ) : Option ℕ := (atol str).map fun n => (n % 2 ^ 64).toNat

theorem ltrim_of_head {s : List Char} (h : ∀ c ∈ s.head?, ¬ isSpace c) : ltrim s = s := by
  cases s with
  | nil => rfl
  | cons c s => rw [ltrim, List.dropWhile_cons_of_neg (h c rfl)]

theorem rtrim_append {s w : List Char} (hs : ∀ c ∈ s.getLast?, ¬ isSpace c)
    (hw : ∀ c ∈ w, isSpace c) : rtrim (s ++ w) = s := by
  have hw' : ∀ c ∈ w.reverse, isSpace c := fun c hc => hw c (List.mem_reverse.mp hc)
  have hs' : s.reverse.dropWhile isSpace = s.reverse :=
    ltrim_of_head fun c hc => hs c (by rwa [List.head?_reverse] at hc)
  rw [rtrim, List.reverse_append, List.dropWhile_append_of_pos hw', hs', List.reverse_reverse]

end Optimer
