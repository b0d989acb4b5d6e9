import Mathlib.Data.List.Basic
import TourPricing.Proofs.Search.Trail

namespace TourPricing

/-- The words of a set: vertex `v` is a member if bit `v % 64` of word `v / 64` is set. -/
abbrev VertexWords := List (BitVec 64)

namespace VertexWords

def empty (n : Nat) : VertexWords :=
  List.replicate ((n + 63) / 64) 0#64

def mask (v : Nat) : BitVec 64 :=
  1#64 <<< (v % 64)

def contains? (w : VertexWords) (v : Nat) : Option Bool :=
  (w[v / 64]?).map fun word => word &&& mask v != 0#64

def insert? (w : VertexWords) (v : Nat) : Option VertexWords :=
  if v / 64 < w.length then some (w.modify (v / 64) (· ||| mask v)) else none

/-- Word by word, as far as both sets have words: no bit is set that the other word misses. -/
def isSubset (w u : VertexWords) : Bool :=
  (w.zip u).all fun pair => pair.1 &&& ~~~pair.2 == 0#64

theorem getLsbD_mask (v j : Nat) : (mask v).getLsbD j = decide (v % 64 = j) := by
  have hv : v % 64 < 64 := Nat.mod_lt v (by decide)
  rw [mask, ← BitVec.twoPow_eq, BitVec.getLsbD_twoPow, decide_eq_true hv, Bool.true_and]

theorem and_mask_ne_zero (word : BitVec 64) (v : Nat) :
    (word &&& mask v != 0#64) = word.getLsbD (v % 64) := by
  have hv : v % 64 < 64 := Nat.mod_lt v (by decide)
  have hmask : BitVec.twoPow 64 (v % 64) ≠ 0#64 := by
    intro h
    have hbit := congrArg (BitVec.getLsbD · (v % 64)) h
    simp [hv] at hbit
  rw [mask, ← BitVec.twoPow_eq, BitVec.and_twoPow]
  cases word.getLsbD (v % 64) with
  | false => simp
  | true => simpa using hmask

theorem and_not_eq_zero_iff {a b : BitVec 64} : a &&& ~~~b = 0#64 ↔
    ∀ j < 64, a.getLsbD j = true → b.getLsbD j = true := by
  constructor
  · intro h j hj ha
    have hbit := congrArg (BitVec.getLsbD · j) h
    simpa [ha, hj] using hbit
  · intro h
    apply BitVec.eq_of_getLsbD_eq
    intro j hj
    cases ha : a.getLsbD j with
    | false => simp [ha]
    | true => simp [ha, h j hj ha]

end VertexWords

namespace VertexSet

variable {n v : Nat} {s t : VertexSet} {visits others : List Nat}

def word (s : VertexSet) (i : Nat) : BitVec 64 :=
  BitVec.ofNat 64 (s.bits >>> (64 * i))

def words (s : VertexSet) : VertexWords :=
  (List.range s.blocks).map s.word

theorem getLsbD_word (s : VertexSet) (i : Nat) {j : Nat} (hj : j < 64) :
    (s.word i).getLsbD j = s.contains (64 * i + j) := by
  rw [word, BitVec.getLsbD_ofNat, decide_eq_true hj, Bool.true_and, Nat.testBit_shiftRight,
    contains]

@[simp] theorem length_words (s : VertexSet) : s.words.length = s.blocks := by
  rw [words, List.length_map, List.length_range]

theorem getElem?_words (s : VertexSet) {i : Nat} (hi : i < s.blocks) :
    s.words[i]? = some (s.word i) := by
  rw [words, List.getElem?_map, List.getElem?_range hi]
  rfl

theorem getElem?_words_eq_none (s : VertexSet) {i : Nat} (hi : ¬ i < s.blocks) :
    s.words[i]? = none := by
  rw [List.getElem?_eq_none_iff, length_words]
  exact Nat.le_of_not_lt hi

theorem covers_iff : s.covers v = true ↔ v / 64 < s.blocks := by
  rw [covers, decide_eq_true_eq, Nat.div_lt_iff_lt_mul (by decide), Nat.mul_comm]

theorem words_empty (n : Nat) : (empty n).words = VertexWords.empty n := by
  have hword : ∀ i, (empty n).word i = 0#64 := fun i => by simp [word, empty]
  rw [words, List.map_congr_left fun i _ => hword i, List.map_const', List.length_range]
  rfl

theorem contains?_words (s : VertexSet) (v : Nat) : s.words.contains? v = s.contains? v := by
  rw [VertexWords.contains?, contains?]
  by_cases hv : v / 64 < s.blocks
  · rw [if_pos (covers_iff.2 hv), getElem?_words s hv, Option.map_some,
      VertexWords.and_mask_ne_zero, getLsbD_word s _ (Nat.mod_lt v (by decide)), Nat.div_add_mod]
  · rw [if_neg (mt covers_iff.1 hv), getElem?_words_eq_none s hv]
    rfl

theorem words_insert (s : VertexSet) (v : Nat) :
    (s.insert v).words = s.words.modify (v / 64) (· ||| VertexWords.mask v) := by
  apply List.ext_getElem?
  intro i
  rw [List.getElem?_modify]
  by_cases hi : i < s.blocks
  · rw [getElem?_words s hi, getElem?_words (s.insert v) hi]
    apply congrArg some
    apply BitVec.eq_of_getLsbD_eq
    intro j hj
    rw [getLsbD_word _ i hj, contains_insert]
    split
    · have hbit : v = 64 * i + j ↔ v % 64 = j := by omega
      rw [BitVec.getLsbD_or, getLsbD_word _ i hj, VertexWords.getLsbD_mask, decide_eq_decide.2 hbit]
    · have hne : v ≠ 64 * i + j := by omega
      rw [getLsbD_word _ i hj, decide_eq_false hne, Bool.or_false]
  · rw [getElem?_words_eq_none s hi, getElem?_words_eq_none (s.insert v) hi]
    rfl

theorem insert?_words (s : VertexSet) (v : Nat) :
    s.words.insert? v = (s.insert? v).map words := by
  rw [VertexWords.insert?, insert?, length_words]
  by_cases hv : v / 64 < s.blocks
  · rw [if_pos hv, if_pos (covers_iff.2 hv), Option.map_some, words_insert]
  · rw [if_neg hv, if_neg (mt covers_iff.1 hv), Option.map_none]

theorem foldlM_insert?_words (s : VertexSet) (visits : List Nat) :
    visits.foldlM VertexWords.insert? s.words = (visits.foldlM insert? s).map words := by
  induction visits generalizing s with
  | nil => rfl
  | cons v rest ih =>
    rw [List.foldlM_cons, List.foldlM_cons, insert?_words]
    cases s.insert? v with
    | none => rfl
    | some t => exact ih t

theorem isSubset_words_iff : s.words.isSubset t.words = true ↔
    ∀ v, v / 64 < s.blocks → v / 64 < t.blocks → s.contains v = true → t.contains v = true := by
  rw [VertexWords.isSubset, List.all_eq_true]
  constructor
  · intro h v hs ht
    have hwords := h (s.word (v / 64), t.word (v / 64)) (List.mem_of_getElem?
      (List.getElem?_zip_eq_some.2 ⟨getElem?_words s hs, getElem?_words t ht⟩))
    rw [beq_iff_eq, VertexWords.and_not_eq_zero_iff] at hwords
    have hj : v % 64 < 64 := Nat.mod_lt v (by decide)
    have hbit := hwords (v % 64) hj
    rwa [getLsbD_word s _ hj, getLsbD_word t _ hj, Nat.div_add_mod] at hbit
  · intro h pair hpair
    obtain ⟨i, hi⟩ := List.mem_iff_getElem?.1 hpair
    obtain ⟨ha, hb⟩ := List.getElem?_zip_eq_some.1 hi
    have hs : i < s.blocks := length_words s ▸ (List.getElem?_eq_some_iff.1 ha).1
    have ht : i < t.blocks := length_words t ▸ (List.getElem?_eq_some_iff.1 hb).1
    rw [getElem?_words s hs] at ha
    rw [getElem?_words t ht] at hb
    rw [← Option.some.inj ha, ← Option.some.inj hb, beq_iff_eq, VertexWords.and_not_eq_zero_iff]
    intro j hj
    have hdiv : (64 * i + j) / 64 = i := by omega
    rw [getLsbD_word s _ hj, getLsbD_word t _ hj]
    exact h _ (hdiv.symm ▸ hs) (hdiv.symm ▸ ht)

def Fits (s : VertexSet) : Prop :=
  ∀ v, s.contains v = true → v / 64 < s.blocks

theorem isSubset_words (hs : s.Fits) : s.words.isSubset t.words = s.isSubset t := by
  rw [Bool.eq_iff_iff, isSubset_words_iff, isSubset_iff]
  constructor
  · intro h v ht hv
    exact h v (hs v hv) (by omega) hv
  · intro h v _ ht hv
    exact h v (by omega) hv

theorem ext_contains (hblocks : s.blocks = t.blocks)
    (h : ∀ v, s.contains v = t.contains v) : s = t := by
  have hbits : s.bits = t.bits := Nat.eq_of_testBit_eq h
  cases s
  cases t
  exact congrArg₂ VertexSet.mk hblocks hbits

theorem words_inj (hs : s.Fits) (ht : t.Fits) : s.words = t.words ↔ s = t := by
  refine ⟨fun h => ?_, fun h => h ▸ rfl⟩
  have hblocks : s.blocks = t.blocks := by rw [← length_words s, h, length_words]
  apply ext_contains hblocks
  intro v
  by_cases hv : v / 64 < s.blocks
  · have hanswer := contains?_words s v
    rw [h, contains?_words, contains?, contains?, if_pos (covers_iff.2 hv),
      if_pos (covers_iff.2 (hblocks ▸ hv))] at hanswer
    exact (Option.some.inj hanswer).symm
  · rw [Bool.eq_false_iff.2 (mt (hs v) hv), Bool.eq_false_iff.2 (mt (ht v) (hblocks ▸ hv))]

def ofList (n : Nat) (visits : List Nat) : VertexSet :=
  visits.foldl insert (empty n)

theorem blocks_ofList (n : Nat) (visits : List Nat) :
    (ofList n visits).blocks = (empty n).blocks :=
  blocks_foldl_insert (empty n) visits

theorem contains_ofList : (ofList n visits).contains v = true ↔ v ∈ visits := by
  rw [ofList, contains_foldl_insert, contains_empty]
  exact or_iff_right Bool.false_ne_true

theorem div_lt_blocks_ofList (visits : List Nat) (hv : v < n) :
    v / 64 < (ofList n visits).blocks := by
  rw [blocks_ofList]
  change v / 64 < (n + 63) / 64
  omega

theorem fits_ofList (h : ∀ v ∈ visits, v < n) : (ofList n visits).Fits :=
  fun v hv => div_lt_blocks_ofList visits (h v (contains_ofList.1 hv))

theorem contains?_ofList (hv : v < n) :
    (ofList n visits).contains? v = some (decide (v ∈ visits)) := by
  rw [contains?, if_pos (covers_iff.2 (div_lt_blocks_ofList visits hv))]
  apply congrArg some
  rw [Bool.eq_iff_iff, contains_ofList, decide_eq_true_eq]

theorem foldlM_insert? (h : ∀ v ∈ visits, v / 64 < s.blocks) :
    visits.foldlM insert? s = some (visits.foldl insert s) := by
  induction visits generalizing s with
  | nil => rfl
  | cons v rest ih =>
    obtain ⟨hv, hrest⟩ := List.forall_mem_cons.1 h
    rw [List.foldlM_cons, insert?, if_pos (covers_iff.2 hv)]
    exact ih hrest

theorem foldlM_insert?_empty (h : ∀ v ∈ visits, v < n) :
    visits.foldlM insert? (empty n) = some (ofList n visits) :=
  foldlM_insert? fun v hv => div_lt_blocks_ofList [] (h v hv)

theorem isSubset_ofList (h : ∀ v ∈ visits, v < n) :
    (ofList n visits).isSubset (ofList n others) = true ↔ ∀ v ∈ visits, v ∈ others := by
  rw [isSubset_iff]
  constructor
  · intro hsub v hv
    have hroom := div_lt_blocks_ofList others (h v hv)
    exact contains_ofList.1 (hsub v (by omega) (contains_ofList.2 hv))
  · exact fun hsub v _ hv => contains_ofList.2 (hsub v (contains_ofList.1 hv))

theorem ofList_eq_iff : ofList n visits = ofList n others ↔ ∀ v, v ∈ visits ↔ v ∈ others := by
  constructor
  · intro h v
    rw [← contains_ofList (n := n), h, contains_ofList]
  · intro h
    apply ext_contains ((blocks_ofList n visits).trans (blocks_ofList n others).symm)
    intro v
    rw [Bool.eq_iff_iff, contains_ofList, contains_ofList, h]

/-- Sets of vertices are finite sets. Vertices below the capacity can be put in one after another,
and are the members from then on; inclusion and equality are those of the vertices that were put in,
whatever their order and however often. On words of 64 bits the operations come to the same. -/
theorem finite_sets_of_inserts (hvisits : ∀ v ∈ visits, v < n) (hothers : ∀ v ∈ others, v < n) :
    ∃ s t : VertexSet, visits.foldlM insert? (empty n) = some s ∧
      others.foldlM insert? (empty n) = some t ∧
      (∀ v < n, s.contains? v = some (decide (v ∈ visits))) ∧
      (s.isSubset t = true ↔ ∀ v ∈ visits, v ∈ others) ∧
      (s = t ↔ ∀ v, v ∈ visits ↔ v ∈ others) ∧
      visits.foldlM VertexWords.insert? (.empty n) = some s.words ∧
      others.foldlM VertexWords.insert? (.empty n) = some t.words ∧
      (∀ v, s.words.contains? v = s.contains? v) ∧
      s.words.isSubset t.words = s.isSubset t ∧ (s.words = t.words ↔ s = t) := by
  have hwords {l : List Nat} (hl : ∀ v ∈ l, v < n) :
      l.foldlM VertexWords.insert? (.empty n) = some (ofList n l).words := by
    rw [← words_empty, foldlM_insert?_words, foldlM_insert?_empty hl, Option.map_some]
  refine ⟨ofList n visits, ofList n others, foldlM_insert?_empty hvisits,
    foldlM_insert?_empty hothers, fun v hv => contains?_ofList hv, isSubset_ofList hvisits,
    ofList_eq_iff, hwords hvisits, hwords hothers, contains?_words _, ?_, ?_⟩
  · exact isSubset_words (fits_ofList hvisits)
  · exact words_inj (fits_ofList hvisits) (fits_ofList hothers)

/-- Vertex 129 is in the third word. -/
theorem finite_sets_across_words : (∀ v ∈ [3], v < 130) ∧ (∀ v ∈ [129, 3, 3], v < 130) ∧
    ∃ s t : VertexSet, [3].foldlM insert? (empty 130) = some s ∧
      [129, 3, 3].foldlM insert? (empty 130) = some t ∧ s.contains? 3 = some true ∧
      s.contains? 129 = some false ∧ s.isSubset t = true ∧ s ≠ t := by
  have hfew : ∀ v ∈ [3], v < 130 := by decide
  have hmore : ∀ v ∈ [129, 3, 3], v < 130 := by decide
  obtain ⟨s, t, hs, ht, hcontains, hsubset, heq, _⟩ := finite_sets_of_inserts hfew hmore
  refine ⟨hfew, hmore, s, t, hs, ht, hcontains 3 (by decide), hcontains 129 (by decide), ?_, ?_⟩
  · exact hsubset.2 (by decide)
  · intro h
    have hmem : 129 ∈ [3] := (heq.1 h 129).2 (by decide)
    exact absurd hmem (by decide)

end VertexSet

end TourPricing
