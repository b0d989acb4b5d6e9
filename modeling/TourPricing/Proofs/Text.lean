import Mathlib.Data.List.TakeWhile
import TourPricing.Decimal.Reader
import TourPricing.Text.Blank

namespace TourPricing.Text

variable {s t before after : List Char}

structure IsTrimmed (s : List Char) : Prop where
  head : ∀ c ∈ s.head?, isBlank c = false
  last : ∀ c ∈ s.getLast?, isBlank c = false

theorem isTrimmed_iff :
    IsTrimmed s ↔ s.head?.all (!isBlank ·) = true ∧ s.getLast?.all (!isBlank ·) = true := by
  simp only [Option.all_eq_true, Bool.not_eq_true']
  exact ⟨fun h => ⟨h.head, h.last⟩, fun h => ⟨h.1, h.2⟩⟩

instance (s : List Char) : Decidable (IsTrimmed s) :=
  decidable_of_iff _ isTrimmed_iff.symm

theorem isTrimmed_nil : IsTrimmed [] :=
  ⟨fun _ hc => (nomatch hc), fun _ hc => (nomatch hc)⟩

theorem isTrimmed_of_forall (h : ∀ c ∈ s, isBlank c = false) : IsTrimmed s :=
  ⟨fun c hc => h c (List.mem_of_mem_head? hc), fun c hc => h c (List.mem_of_getLast? hc)⟩

theorem IsTrimmed.around (hs : IsTrimmed s) (ht : IsTrimmed t) (hne : s ≠ []) (hne' : t ≠ [])
    (middle : List Char) : IsTrimmed (s ++ (middle ++ t)) := by
  constructor
  · cases s with
    | nil => exact absurd rfl hne
    | cons c rest => exact hs.head
  · rw [List.getLast?_append, List.getLast?_append, List.getLast?_eq_some_getLast hne']
    intro c hc
    exact ht.last c (by rwa [List.getLast?_eq_some_getLast hne'])

theorem dropWhile_isBlank (h : ∀ c ∈ s.head?, isBlank c = false) : s.dropWhile isBlank = s := by
  cases s with
  | nil => rfl
  | cons c rest =>
    apply List.dropWhile_cons_of_neg
    rw [h c rfl]
    exact Bool.false_ne_true

theorem trim_eq (hb : ∀ c ∈ before, isBlank c = true) (ha : ∀ c ∈ after, isBlank c = true)
    (hs : IsTrimmed s) : trim (before ++ s ++ after) = s := by
  rw [trim, List.append_assoc, List.dropWhile_append_of_pos hb]
  cases s with
  | nil =>
    rw [List.nil_append, List.dropWhile_eq_nil_iff.2 ha]
    rfl
  | cons c rest =>
    have hfirst : ∀ d ∈ (c :: rest ++ after).head?, isBlank d = false := hs.head
    have hlast : ∀ d ∈ (c :: rest).reverse.head?, isBlank d = false := by
      rw [List.head?_reverse]
      exact hs.last
    have hafter : ∀ d ∈ after.reverse, isBlank d = true :=
      fun d hd => ha d (List.mem_reverse.1 hd)
    rw [dropWhile_isBlank hfirst, List.reverse_append, List.dropWhile_append_of_pos hafter,
      dropWhile_isBlank hlast, List.reverse_reverse]

theorem trim_of_isTrimmed (hs : IsTrimmed s) : trim s = s := by
  have h := trim_eq (List.forall_mem_nil _) (List.forall_mem_nil _) hs
  rwa [List.nil_append, List.append_nil] at h

theorem cutAt_append {c : Char} (hc : c ∉ s) : cutAt c (s ++ c :: t) = some (s, t) := by
  have hne : ∀ d ∈ s, (d != c) = true := by
    intro d hd
    rw [bne_iff_ne]
    rintro rfl
    exact hc hd
  simp [cutAt, List.dropWhile_append_of_pos hne, List.takeWhile_append_of_pos hne]

theorem cutAt_eq_none {c : Char} (hc : c ∉ s) : cutAt c s = none := by
  have hnil : s.dropWhile (· != c) = [] := by
    rw [List.dropWhile_eq_nil_iff]
    intro d hd
    rw [bne_iff_ne]
    rintro rfl
    exact hc hd
  rw [cutAt, hnil]

theorem words_append (hs : ∀ c ∈ s, isBlank c = false) (hne : s ≠ []) :
    words (s ++ ' ' :: t) = s :: words t := by
  rw [words, List.splitOnP_append_cons_of_forall_mem hs ' ' rfl, List.filter_cons_of_pos]
  · rfl
  · simpa using hne

theorem words_eq_singleton (hs : ∀ c ∈ s, isBlank c = false) (hne : s ≠ []) : words s = [s] := by
  rw [words, List.splitOnP_eq_singleton hs, List.filter_cons_of_pos]
  · rfl
  · simpa using hne

theorem isBlank_of_isDigit {c : Char} (hc : c.isDigit = true) : isBlank c = false := by
  simp only [Char.isDigit, Bool.and_eq_true, decide_eq_true_eq, ge_iff_le] at hc
  have hlow : 48 ≤ c.toNat := hc.1
  have hhigh : c.toNat ≤ 57 := hc.2
  simp only [isBlank, Bool.or_eq_false_iff, Bool.and_eq_false_iff, decide_eq_false_iff_not,
    beq_eq_false_iff_ne]
  omega

end TourPricing.Text

namespace TourPricing.Decimal

theorem isDigit_of_mem_toDigits {n : Nat} {c : Char} (hc : c ∈ Nat.toDigits 10 n) :
    c.isDigit = true :=
  Nat.isDigit_of_mem_toDigits (by decide) (by decide) hc

theorem isBlank_of_mem_toDigits {n : Nat} {c : Char} (hc : c ∈ Nat.toDigits 10 n) :
    Text.isBlank c = false :=
  Text.isBlank_of_isDigit (isDigit_of_mem_toDigits hc)

theorem isTrimmed_toDigits (n : Nat) : Text.IsTrimmed (Nat.toDigits 10 n) :=
  Text.isTrimmed_of_forall fun _ hc => isBlank_of_mem_toDigits hc

theorem ofDigits_toDigits (n : Nat) : ofDigits (Nat.toDigits 10 n) = n := by
  rw [ofDigits, ← Nat.ofDigitChars_eq_foldl, Nat.ofDigitChars_ten_toDigits]

theorem readNat_toDigits {limit n : Nat} (h : n < limit) :
    readNat limit (Nat.toDigits 10 n) = some n := by
  have hdigits : isNumeral (Nat.toDigits 10 n) = true := by
    rw [isNumeral, Bool.and_eq_true, List.all_eq_true]
    exact ⟨by simp [Nat.toDigits_ne_nil], fun c hc => isDigit_of_mem_toDigits hc⟩
  have hread : (isNumeral (Nat.toDigits 10 n) && ofDigits (Nat.toDigits 10 n) < limit) = true := by
    rw [hdigits, ofDigits_toDigits, Bool.true_and]
    exact decide_eq_true h
  have hplus : ∀ rest, Nat.toDigits 10 n = '+' :: rest → False := by
    intro rest hrest
    have hmem : '+' ∈ Nat.toDigits 10 n := hrest ▸ List.mem_cons_self
    exact absurd (isDigit_of_mem_toDigits hmem) (by decide)
  rw [readNat, if_pos hread, ofDigits_toDigits]
  exact hplus

end TourPricing.Decimal
