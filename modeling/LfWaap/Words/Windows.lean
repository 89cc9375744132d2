import Mathlib.Data.List.Basic
import Mathlib.Data.List.TakeDrop
import Mathlib.Data.Nat.Digits.Defs

/-!
# Windows of a word, and their codes

The windows of a word are its parts of a fixed length, one for each position
(`Words.windows`). Where the letters are digits in a base, each window can be written as one
number, with its first letter in the highest place (`Words.number`, `Words.codes`).

Nothing is lost by this. The digits of a number are those it was written with
(`Words.digits_number`), if their count is known. Two windows that follow each other share all
letters but one, which shows in their numbers (`Words.codes_overlap`): so the word is read back
from the first number, and the lowest digit of each later one (`Words.decode_codes`).
-/

namespace Words

/-! ### Windows -/

section

variable {α : Type} {w i j : ℕ} {xs u v : List α}

/-- **The windows of a word**: its parts of `w` letters, one for each position. -/
def windows (w : ℕ) (xs : List α) : List (List α) :=
  (List.range (xs.length + 1 - w)).map fun i => (xs.drop i).take w

theorem length_windows (w : ℕ) (xs : List α) : (windows w xs).length = xs.length + 1 - w := by
  rw [windows, List.length_map, List.length_range]

/-- The window at a position is there as long as the word is long enough. -/
theorem getElem?_windows_eq_some_iff :
    (windows w xs)[i]? = some u ↔ i + w ≤ xs.length ∧ (xs.drop i).take w = u := by
  have hlt : i < xs.length + 1 - w ↔ i + w ≤ xs.length := by omega
  rw [windows, List.getElem?_map]
  by_cases hi : i < xs.length + 1 - w
  · rw [List.getElem?_range hi, Option.map_some, Option.some_inj, and_iff_right (hlt.mp hi)]
  · have hlen : (List.range (xs.length + 1 - w)).length ≤ i := by
      rw [List.length_range]
      exact Nat.le_of_not_lt hi
    rw [List.getElem?_eq_none hlen, Option.map_none]
    exact iff_of_false (Option.some_ne_none u).symm fun h => hi (hlt.mpr h.1)

/-- A window has as many letters as it is wide. -/
theorem length_of_mem_windows (h : u ∈ windows w xs) : u.length = w := by
  obtain ⟨i, hi⟩ := List.mem_iff_getElem?.mp h
  obtain ⟨hlen, rfl⟩ := getElem?_windows_eq_some_iff.mp hi
  rw [List.length_take, List.length_drop]
  omega

theorem mem_of_mem_windows (h : u ∈ windows w xs) {x : α} (hx : x ∈ u) : x ∈ xs := by
  obtain ⟨i, hi⟩ := List.mem_iff_getElem?.mp h
  obtain ⟨-, rfl⟩ := getElem?_windows_eq_some_iff.mp hi
  exact List.mem_of_mem_drop (List.mem_of_mem_take hx)

/-- The letters of the window at a position are those from this position on. -/
theorem getElem?_of_window (h : (windows w xs)[i]? = some u) (hj : j < w) :
    u[j]? = xs[i + j]? := by
  obtain ⟨-, rfl⟩ := getElem?_windows_eq_some_iff.mp h
  rw [List.getElem?_take_of_lt hj, List.getElem?_drop]

/-- **Windows overlap**: one without its first letter is the next one without its last. -/
theorem tail_window (h : (windows w xs)[i]? = some u) (h' : (windows w xs)[i + 1]? = some v) :
    u.tail = v.dropLast := by
  obtain ⟨-, rfl⟩ := getElem?_windows_eq_some_iff.mp h
  obtain ⟨hlen, rfl⟩ := getElem?_windows_eq_some_iff.mp h'
  have hw : ((xs.drop (i + 1)).take w).length = w := by
    rw [List.length_take, List.length_drop]
    omega
  rw [List.tail_take_eq_take_tail, List.tail_drop, List.dropLast_eq_take, hw, List.take_take]
  congr 1
  omega

/-- One more letter, one more window. -/
theorem windows_cons (x : α) (h : w ≤ xs.length + 1) :
    windows w (x :: xs) = (x :: xs).take w :: windows w xs := by
  have hlen : (x :: xs).length + 1 - w = xs.length + 1 - w + 1 := by
    rw [List.length_cons]
    omega
  rw [windows, hlen, List.range_succ_eq_map, List.map_cons, List.map_map]
  rfl

theorem windows_of_lt (h : xs.length < w) : windows w xs = [] := by
  rw [windows, Nat.sub_eq_zero_of_le h]
  rfl

/-- **The last letters of the windows** are the letters of the word, apart from those before the
end of the first window. -/
theorem map_getLast?_windows (hw : 0 < w) (xs : List α) :
    (windows w xs).map List.getLast? = (xs.drop (w - 1)).map some := by
  obtain ⟨k, rfl⟩ := Nat.exists_eq_succ_of_ne_zero hw.ne'
  induction xs with
  | nil =>
    rw [windows_of_lt hw, List.drop_nil]
    rfl
  | cons x xs ih =>
    rcases Nat.lt_or_ge xs.length k with hlt | hle
    · rw [windows_of_lt (Nat.succ_lt_succ hlt), List.drop_eq_nil_of_le hlt]
      rfl
    · have hk : k < (x :: xs).length := Nat.lt_succ_of_le hle
      have hlast : ((x :: xs).take (k + 1)).getLast? = some (x :: xs)[k] := by
        rw [List.getLast?_take, if_neg (Nat.succ_ne_zero k), Nat.add_sub_cancel,
          List.getElem?_eq_getElem hk, Option.some_or]
      rw [windows_cons x (Nat.succ_le_succ hle), List.map_cons, ih, hlast, Nat.succ_sub_one,
        List.drop_eq_getElem_cons hk]
      rfl

/-- Windows of one letter. -/
theorem windows_one (xs : List α) : windows 1 xs = xs.map fun x => [x] := by
  induction xs with
  | nil => rfl
  | cons x xs ih =>
    rw [windows_cons x (Nat.succ_le_succ (Nat.zero_le _)), ih]
    rfl

end

/-! ### Numbers -/

section

variable {b n j d : ℕ} {ds : List ℕ}

/-- **The number written with digits**, the first of them in the highest place. -/
def number (b : ℕ) (ds : List ℕ) : ℕ := Nat.ofDigits b ds.reverse

/-- Digit by digit, what is there is moved up by one place. -/
theorem number_eq_foldl (b : ℕ) (ds : List ℕ) :
    number b ds = ds.foldl (fun n d => n * b + d) 0 := by
  rw [number, Nat.ofDigits_eq_foldr, List.foldr_reverse]
  congr 1
  funext n d
  rw [Nat.cast_id, Nat.mul_comm, Nat.add_comm]

theorem number_lt (hb : 1 < b) (h : ∀ d ∈ ds, d < b) : number b ds < b ^ ds.length := by
  rw [number, ← List.length_reverse]
  exact Nat.ofDigits_lt_base_pow_length hb fun d hd => h d (List.mem_reverse.mp hd)

/-- The lowest digit goes to the remainder. -/
theorem number_mod (h : ∀ d ∈ ds, d < b) (hd : ds.getLast? = some d) : number b ds % b = d := by
  obtain ⟨ds, rfl⟩ := List.getLast?_eq_some_iff.mp hd
  rw [number, List.reverse_append, List.reverse_singleton, List.singleton_append,
    Nat.ofDigits_cons, Nat.add_mul_mod_self_left]
  exact Nat.mod_eq_of_lt (h d (by simp))

/-- The other digits are what the number is divided to. -/
theorem number_div_pow (hb : 0 < b) (h : ∀ d ∈ ds, d < b) (k : ℕ) :
    number b ds / b ^ k = number b (ds.take (ds.length - k)) := by
  rw [number, number, Nat.ofDigits_div_pow_eq_ofDigits_drop k hb _
    fun d hd => h d (List.mem_reverse.mp hd), List.drop_reverse]

/-- Lower digits are what remains. -/
theorem number_mod_pow (hb : 0 < b) (h : ∀ d ∈ ds, d < b) (k : ℕ) :
    number b ds % b ^ k = number b (ds.drop (ds.length - k)) := by
  rw [number, number, Nat.ofDigits_mod_pow_eq_ofDigits_take k hb _
    fun d hd => h d (List.mem_reverse.mp hd), List.take_reverse]

/-- The digit of a number of `n` digits at a position, the highest one first. -/
def digitAt (b n t j : ℕ) : ℕ := t / b ^ (n - 1 - j) % b

/-- The digits of a number of `n` digits. -/
def digits (b n t : ℕ) : List ℕ := (List.range n).map (digitAt b n t)

/-- **The digits of a number** are those it was written with. -/
theorem digitAt_number (hb : 0 < b) (h : ∀ d ∈ ds, d < b) (hd : ds[j]? = some d) :
    digitAt b ds.length (number b ds) j = d := by
  have hj := (List.getElem?_eq_some_iff.mp hd).1
  have hk : ds.length - (ds.length - 1 - j) = j + 1 := by omega
  rw [digitAt, number_div_pow hb h, hk]
  refine number_mod (fun d hd => h d (List.mem_of_mem_take hd)) ?_
  rw [List.getLast?_take, if_neg (Nat.succ_ne_zero j), Nat.add_sub_cancel, hd, Option.some_or]

theorem digits_number (hb : 0 < b) (h : ∀ d ∈ ds, d < b) :
    digits b ds.length (number b ds) = ds := by
  apply List.ext_getElem
  · rw [digits, List.length_map, List.length_range]
  · intro j _ hj
    simp only [digits, List.getElem_map, List.getElem_range]
    exact digitAt_number hb h (List.getElem?_eq_getElem hj)

theorem length_digits (b n t : ℕ) : (digits b n t).length = n := by
  rw [digits, List.length_map, List.length_range]

theorem lt_of_mem_digits (hb : 0 < b) {t : ℕ} (h : d ∈ digits b n t) : d < b := by
  obtain ⟨j, -, rfl⟩ := List.mem_map.mp h
  exact Nat.mod_lt _ hb

/-- The highest digit, and those of what remains. -/
theorem digits_succ_left (b n t : ℕ) :
    digits b (n + 1) t = t / b ^ n % b :: digits b n (t % b ^ n) := by
  rw [digits, List.range_succ_eq_map, List.map_cons, List.map_map]
  refine congrArg _ (List.map_congr_left fun j hj => ?_)
  obtain ⟨k, rfl⟩ := Nat.exists_eq_add_of_lt (List.mem_range.mp hj)
  have hpow : b ^ (j + k + 1) = b ^ k * b ^ (j + 1) := by
    rw [← Nat.pow_add]
    congr 1
    omega
  have hleft : j + k + 1 + 1 - 1 - (j + 1) = k := by omega
  have hright : j + k + 1 - 1 - j = k := by omega
  show t / b ^ (j + k + 1 + 1 - 1 - (j + 1)) % b =
    t % b ^ (j + k + 1) / b ^ (j + k + 1 - 1 - j) % b
  rw [hleft, hright, hpow, Nat.mod_mul_right_div_self,
    Nat.mod_mod_of_dvd _ (dvd_pow_self b (Nat.succ_ne_zero j))]

/-- The lowest digit, and those of what the number is divided to. -/
theorem digits_succ_right (b n t : ℕ) : digits b (n + 1) t = digits b n (t / b) ++ [t % b] := by
  rw [digits, List.range_succ, List.map_append, List.map_singleton, digitAt, Nat.add_sub_cancel,
    Nat.sub_self, Nat.pow_zero, Nat.div_one]
  refine congrArg (· ++ _) (List.map_congr_left fun j hj => ?_)
  have hlt := List.mem_range.mp hj
  have hexp : n + 1 - 1 - j = n - 1 - j + 1 := by omega
  rw [digitAt, digitAt, hexp, Nat.pow_succ', Nat.div_div_eq_div_mul]

/-- **A number is written with its digits.** -/
theorem number_digits {t : ℕ} (ht : t < b ^ n) : number b (digits b n t) = t := by
  induction n generalizing t with
  | zero =>
    rw [Nat.pow_zero, Nat.lt_one_iff] at ht
    rw [ht]
    rfl
  | succ n ih =>
    have hdiv : t / b < b ^ n := by
      refine Nat.div_lt_of_lt_mul ?_
      rwa [← Nat.pow_succ']
    rw [digits_succ_right, number_eq_foldl, List.foldl_append, ← number_eq_foldl, ih hdiv]
    exact Nat.div_add_mod' t b

end

/-! ### Codes -/

section

variable {b w i j t t' : ℕ} {ds : List ℕ}

/-- **The codes of a word of digits**: its windows, each written as a number. -/
def codes (b w : ℕ) (ds : List ℕ) : List ℕ := (windows w ds).map (number b)

/-- The word that is read from its codes: the digits of the first one, and the lowest digit of
each of the others. -/
def decode (b w : ℕ) : List ℕ → List ℕ
  | [] => []
  | t :: ts => digits b w t ++ ts.map (· % b)

/-- A code is the number of the window at its position. -/
theorem getElem?_codes_eq_some_iff :
    (codes b w ds)[i]? = some t ↔ ∃ u, (windows w ds)[i]? = some u ∧ number b u = t := by
  rw [codes, List.getElem?_map, Option.map_eq_some_iff]

theorem codes_lt (hb : 1 < b) (h : ∀ d ∈ ds, d < b) (ht : t ∈ codes b w ds) : t < b ^ w := by
  obtain ⟨u, hu, rfl⟩ := List.mem_map.mp ht
  rw [← length_of_mem_windows hu]
  exact number_lt hb fun d hd => h d (mem_of_mem_windows hu hd)

/-- **The digits of a code** are the letters from its position on. -/
theorem digitAt_codes (hb : 0 < b) (h : ∀ d ∈ ds, d < b) (ht : (codes b w ds)[i]? = some t)
    (hj : j < w) : ds[i + j]? = some (digitAt b w t j) := by
  obtain ⟨u, hu, rfl⟩ := getElem?_codes_eq_some_iff.mp ht
  have hmem := List.mem_of_getElem? hu
  have hlen := length_of_mem_windows hmem
  obtain ⟨d, hd⟩ : ∃ d, u[j]? = some d := ⟨u[j], List.getElem?_eq_getElem (hlen.symm ▸ hj)⟩
  have hdigit := digitAt_number hb (fun d hd => h d (mem_of_mem_windows hmem hd)) hd
  rw [hlen] at hdigit
  rw [← getElem?_of_window hu hj, hdigit, hd]

/-- **Codes overlap**: the lower digits of one are the higher digits of the next. -/
theorem codes_overlap (hb : 0 < b) (h : ∀ d ∈ ds, d < b) (hw : 0 < w)
    (ht : (codes b w ds)[i]? = some t) (ht' : (codes b w ds)[i + 1]? = some t') :
    t' / b = t % b ^ (w - 1) := by
  obtain ⟨u, hu, rfl⟩ := getElem?_codes_eq_some_iff.mp ht
  obtain ⟨v, hv, rfl⟩ := getElem?_codes_eq_some_iff.mp ht'
  have hlt : ∀ {i u}, (windows w ds)[i]? = some u → ∀ d ∈ u, d < b := fun hu d hd =>
    h d (mem_of_mem_windows (List.mem_of_getElem? hu) hd)
  have hdiv := number_div_pow hb (hlt hv) 1
  have hmod := number_mod_pow hb (hlt hu) (w - 1)
  rw [pow_one, ← List.dropLast_eq_take] at hdiv
  rw [length_of_mem_windows (List.mem_of_getElem? hu), Nat.sub_sub_self hw, List.drop_one] at hmod
  rw [hdiv, hmod, tail_window hu hv]

/-- The lowest digits of the codes are the letters after the first window, and the last letter
of it. -/
theorem map_codes_mod (h : ∀ d ∈ ds, d < b) (hw : 0 < w) :
    (codes b w ds).map (· % b) = ds.drop (w - 1) := by
  refine List.map_injective_iff.mpr (Option.some_injective ℕ) ?_
  rw [← map_getLast?_windows hw, codes, List.map_map, List.map_map]
  refine List.map_congr_left fun u hu => ?_
  have hlt : ∀ d ∈ u, d < b := fun d hd => h d (mem_of_mem_windows hu hd)
  have hne : u ≠ [] := List.ne_nil_of_length_pos (length_of_mem_windows hu ▸ hw)
  have hlast := List.getLast?_eq_some_getLast hne
  rw [hlast, ← number_mod hlt hlast]
  rfl

/-- **The word is read back from its codes**, if it is as long as a window. -/
theorem decode_codes (hb : 0 < b) (h : ∀ d ∈ ds, d < b) (hw : 0 < w) (hlen : w ≤ ds.length) :
    decode b w (codes b w ds) = ds := by
  rcases ds with _ | ⟨x, xs⟩
  · exact absurd hlen (Nat.not_le_of_lt hw)
  · have hfirst : ((x :: xs).take w).length = w := List.length_take_of_le hlen
    have hdigits := digits_number hb fun d hd => h d (List.mem_of_mem_take (i := w) hd)
    have hrest := map_codes_mod (fun d hd => h d (List.mem_cons_of_mem x hd)) hw
    have hdrop : xs.drop (w - 1) = (x :: xs).drop w := by
      obtain ⟨k, rfl⟩ := Nat.exists_eq_succ_of_ne_zero hw.ne'
      rfl
    rw [hfirst] at hdigits
    rw [codes, windows_cons x hlen, List.map_cons, decode, hdigits]
    show _ ++ (codes b w xs).map (· % b) = _
    rw [hrest, hdrop, List.take_append_drop]

/-- **Words with the same codes are the same.** -/
theorem codes_injective (hb : 0 < b) (hw : 0 < w) {ds ds' : List ℕ} (h : ∀ d ∈ ds, d < b)
    (h' : ∀ d ∈ ds', d < b) (hlen : w ≤ ds.length) (hlen' : w ≤ ds'.length)
    (heq : codes b w ds = codes b w ds') : ds = ds' := by
  rw [← decode_codes hb h hw hlen, heq, decode_codes hb h' hw hlen']

/-- In windows of one letter, the codes are the letters. -/
theorem codes_one (b : ℕ) (ds : List ℕ) : codes b 1 ds = ds := by
  have hnumber : ∀ d, number b [d] = d := fun d => Nat.ofDigits_singleton
  rw [codes, windows_one, List.map_map]
  exact List.map_id'' hnumber ds

/-! ### Which numbers are codes -/

variable {ts : List ℕ}

/-- One more code in front is one more letter in front, where the codes overlap. -/
theorem decode_cons_cons {k : ℕ} (h : t' / b = t % b ^ k) (ts : List ℕ) :
    decode b (k + 1) (t :: t' :: ts) = t / b ^ k % b :: decode b (k + 1) (t' :: ts) := by
  rw [decode, decode, digits_succ_left, digits_succ_right b k t', h, List.map_cons,
    List.append_assoc]
  rfl

theorem lt_of_mem_decode {d : ℕ} (hb : 0 < b) (h : d ∈ decode b w ts) : d < b := by
  rcases ts with _ | ⟨t, ts⟩
  · exact absurd h List.not_mem_nil
  · rcases List.mem_append.mp h with h | h
    · exact lt_of_mem_digits hb h
    · obtain ⟨t', -, rfl⟩ := List.mem_map.mp h
      exact Nat.mod_lt t' hb

theorem le_length_decode (hne : ts ≠ []) : w ≤ (decode b w ts).length := by
  obtain ⟨t, ts, rfl⟩ := List.exists_cons_of_ne_nil hne
  rw [decode, List.length_append, length_digits]
  exact Nat.le_add_right _ _

/-- **Numbers that overlap are the codes of the word that is read from them.** -/
theorem codes_decode (hw : 0 < w) (hne : ts ≠ []) (hlt : ∀ t ∈ ts, t < b ^ w)
    (hchain : ts.IsChain fun t t' => t' / b = t % b ^ (w - 1)) :
    codes b w (decode b w ts) = ts := by
  obtain ⟨k, rfl⟩ : ∃ k, w = k + 1 := ⟨w - 1, (Nat.sub_add_cancel hw).symm⟩
  rw [Nat.add_sub_cancel] at hchain
  induction ts with
  | nil => exact absurd rfl hne
  | cons t ts ih =>
    have hdigits := number_digits (hlt t List.mem_cons_self)
    have hlen := length_digits b (k + 1) t
    rcases ts with _ | ⟨t', ts⟩
    · have hself : windows (k + 1) (digits b (k + 1) t) = [digits b (k + 1) t] := by
        rw [windows, hlen, Nat.add_sub_cancel_left]
        show [(digits b (k + 1) t).take (k + 1)] = _
        rw [List.take_of_length_le hlen.le]
      show codes b (k + 1) (digits b (k + 1) t ++ []) = [t]
      rw [List.append_nil, codes, hself, List.map_singleton, hdigits]
    · obtain ⟨hover, hchain⟩ := List.isChain_cons_cons.mp hchain
      have htail := ih (List.cons_ne_nil t' ts) (fun s hs => hlt s (List.mem_cons_of_mem t hs))
        hchain
      have hle := le_length_decode (b := b) (w := k + 1) (List.cons_ne_nil t' ts)
      have hword := decode_cons_cons hover ts
      -- the first window is written with the digits of the first number
      have hfirst : (decode b (k + 1) (t :: t' :: ts)).take (k + 1) = digits b (k + 1) t := by
        rw [decode, List.take_left' hlen]
      rw [hword] at hfirst ⊢
      rw [codes, windows_cons _ (Nat.le_succ_of_le hle), List.map_cons, hfirst, hdigits]
      exact congrArg (t :: ·) htail

/-- **Which lists of numbers are codes** of a word as long as a window: those of numbers with
as many digits, each of which overlaps with the next one. -/
theorem exists_codes_eq_iff (hb : 1 < b) (hw : 0 < w) :
    (∃ ds, (∀ d ∈ ds, d < b) ∧ w ≤ ds.length ∧ codes b w ds = ts) ↔
      ts ≠ [] ∧ (∀ t ∈ ts, t < b ^ w) ∧ ts.IsChain fun t t' => t' / b = t % b ^ (w - 1) := by
  have hpos : 0 < b := Nat.lt_of_succ_lt hb
  constructor
  · rintro ⟨ds, h, hlen, rfl⟩
    refine ⟨?_, fun t ht => codes_lt hb h ht, List.isChain_iff_getElem.mpr fun i hi => ?_⟩
    · refine List.ne_nil_of_length_pos ?_
      rw [codes, List.length_map, length_windows]
      omega
    · exact codes_overlap hpos h hw (List.getElem?_eq_getElem _) (List.getElem?_eq_getElem hi)
  · rintro ⟨hne, hlt, hchain⟩
    exact ⟨decode b w ts, fun d hd => lt_of_mem_decode hpos hd, le_length_decode hne,
      codes_decode hw hne hlt hchain⟩

end

end Words
