import Mathlib.Data.List.Sort
import TourPricing.Proofs.Network.Construction
import TourPricing.Proofs.Network.Reading

namespace TourPricing.Network

variable {points order : List (Nat × Float × Float)}

/-- The source that some lines give, counted from one. It is `first` if no line is about it. -/
def SourceGiven (lines : List (List Char)) (first n : Nat) : Prop :=
  match lastValue "SOURCE" lines with
  | none => n = first
  | some value => Decimal.readNat indexLimit value = some n

/-- Points in the order of their ids; points with one id keep their order. -/
structure InOrder (points order : List (Nat × Float × Float)) : Prop where
  perm : order.Perm points
  ascending : order.Pairwise fun p q => p.1 ≤ q.1
  stable : ∀ id, order.filter (·.1 == id) = points.filter (·.1 == id)

theorem inOrder_mergeSort (points : List (Nat × Float × Float)) :
    InOrder points (points.mergeSort fun p q => p.1 ≤ q.1) := by
  have htrans : ∀ p q r : Nat × Float × Float, decide (p.1 ≤ q.1) = true →
      decide (q.1 ≤ r.1) = true → decide (p.1 ≤ r.1) = true := by
    intro p q r hpq hqr
    exact decide_eq_true (Nat.le_trans (of_decide_eq_true hpq) (of_decide_eq_true hqr))
  have htotal : ∀ p q : Nat × Float × Float,
      (decide (p.1 ≤ q.1) || decide (q.1 ≤ p.1)) = true := by
    intro p q
    simpa using Nat.le_total p.1 q.1
  have hperm := List.mergeSort_perm points fun p q => p.1 ≤ q.1
  refine ⟨hperm, ?_, fun id => ?_⟩
  · exact (List.pairwise_mergeSort htrans htotal points).imp fun h => of_decide_eq_true h
  · have hsame : (points.filter (·.1 == id)).Pairwise fun p q => decide (p.1 ≤ q.1) = true := by
      refine List.pairwise_filter.2 (List.pairwise_of_forall fun p q hp hq => ?_)
      rw [beq_iff_eq] at hp hq
      exact decide_eq_true (hp.trans hq.symm).le
    have hsub := (List.sublist_mergeSort htrans htotal hsame List.filter_sublist).filter (·.1 == id)
    rw [List.filter_filter] at hsub
    simp only [Bool.and_self] at hsub
    exact (hsub.eq_of_length (hperm.filter _).length_eq.symm).symm

theorem InOrder.getElem? (h : InOrder points order)
    (hids : (points.map (·.1)).Perm (List.range' 1 points.length)) {p : Nat × Float × Float}
    (hp : p ∈ points) : order[p.1 - 1]? = some p := by
  have hascending : (order.map (·.1)).Pairwise (· ≤ ·) := List.pairwise_map.2 h.ascending
  have heq : order.map (·.1) = List.range' 1 points.length :=
    List.Perm.eq_of_pairwise (fun _ _ _ _ => Nat.le_antisymm) hascending
      (List.pairwise_le_range' 1) ((h.perm.map _).trans hids)
  obtain ⟨i, hi, rfl⟩ := List.getElem_of_mem (h.perm.mem_iff.2 hp)
  have hlt : i < points.length := h.perm.length_eq ▸ hi
  have hid : (order.map (·.1))[i]? = some (1 + i) := by simp [heq, hlt]
  rw [List.getElem?_map, List.getElem?_eq_getElem hi] at hid
  rw [show order[i].1 = 1 + i from Option.some.inj hid, Nat.add_sub_cancel_left]
  exact List.getElem?_eq_getElem hi

namespace Sheet

variable {sheet next : Sheet} {lines : List (List Char)} {N : Network}

theorem withHeader_cases {key value : List Char} (h : sheet.withHeader key value = .ok next) :
    (String.ofList key = "SOURCE" ∧ ∃ n, Decimal.readNat indexLimit value = some n ∧
      next = { sheet with source := n }) ∨
    (String.ofList key ≠ "SOURCE" ∧ next.source = sheet.source ∧
      next.coordinates = sheet.coordinates ∧ next.current = sheet.current) := by
  rw [withHeader] at h
  split at h
  case h_4 hkey =>
    obtain ⟨n, hn, h⟩ := exists_of_bind_ok h
    exact .inl ⟨hkey, n, required_eq_ok.1 hn, (Except.ok.inj h).symm⟩
  case h_1 hkey | h_2 hkey | h_7 hkey | h_8 hkey =>
    cases h
    exact .inr ⟨hkey ▸ by decide, rfl, rfl, rfl⟩
  case h_3 hkey | h_5 hkey | h_6 hkey =>
    obtain ⟨n, -, h⟩ := exists_of_bind_ok h
    cases h
    exact .inr ⟨hkey ▸ by decide, rfl, rfl, rfl⟩
  case h_9 => cases h

theorem coordinates_of_readLines (h : sheet.readLines lines = .ok next) :
    ∃ points, List.Forall₂ PointWords (pointLines sheet.current lines) points ∧
      next.coordinates = sheet.coordinates ++ points := by
  induction lines generalizing sheet with
  | nil =>
    cases h
    exact ⟨[], .nil, (List.append_nil _).symm⟩
  | cons line lines ih =>
    obtain ⟨middle, hline, hrest⟩ := exists_of_bind_ok h
    obtain ⟨points, hpoints, hnext⟩ := ih hrest
    have henters := enters_of_withLine hline
    rw [pointLines]
    generalize Line.of (Text.trim line) = kind at henters
    cases henters with
    | idle => exact ⟨points, hpoints, hnext⟩
    | header hheader =>
      rcases withHeader_cases hheader with ⟨-, n, -, rfl⟩ | ⟨-, -, hcoordinates, hcurrent⟩
      · exact ⟨points, hpoints, hnext⟩
      · rw [hcurrent] at hpoints
        exact ⟨points, hpoints, hcoordinates ▸ hnext⟩
    | title opened => exact ⟨points, hpoints, hnext⟩
    | @point words p hcurrent hwords =>
      rw [List.append_assoc, List.singleton_append] at hnext
      refine ⟨p :: points, ?_, hnext⟩
      simp only [hcurrent, if_true] at hpoints ⊢
      exact .cons hwords hpoints
    | arc a hcurrent =>
      have hno : sheet.current ≠ .coordinates := hcurrent ▸ by decide
      simp only [if_neg hno]
      exact ⟨points, hpoints, hnext⟩

theorem source_of_readLines (h : sheet.readLines lines = .ok next) :
    SourceGiven lines sheet.source next.source := by
  induction lines generalizing sheet with
  | nil =>
    cases h
    rfl
  | cons line lines ih =>
    obtain ⟨middle, hline, hrest⟩ := exists_of_bind_ok h
    have hlater := ih hrest
    have henters := enters_of_withLine hline
    rw [SourceGiven, lastValue]
    rw [SourceGiven] at hlater
    cases hlast : lastValue "SOURCE" lines with
    | some value => rwa [hlast] at hlater
    | none =>
      rw [hlast] at hlater
      rw [show next.source = middle.source from hlater]
      generalize Line.of (Text.trim line) = kind at henters
      cases henters with
      | idle | title | point | arc => rfl
      | header hheader =>
        rcases withHeader_cases hheader with ⟨hkey, n, hn, rfl⟩ | ⟨hkey, hsource, -, -⟩
        · simpa [hkey] using hn
        · simpa [hkey] using hsource

def onPoints (sheet : Sheet) : Network :=
  let points := (sheet.coordinates.mergeSort fun p q => p.1 ≤ q.1).map (·.2)
  { Network.onPoints sheet.name points (sheet.source - 1) sheet.horizon with
    comment := sheet.comment, lowerBound := sheet.lowerBound }

theorem dimension_onPoints (sheet : Sheet) :
    sheet.onPoints.dimension = sheet.coordinates.length := by
  change ((sheet.coordinates.mergeSort fun p q => p.1 ≤ q.1).map (·.2)).length = _
  rw [List.length_map, List.length_mergeSort]

theorem vertices_onPoints (sheet : Sheet) : sheet.onPoints.vertices =
    (sheet.coordinates.mergeSort fun p q => p.1 ≤ q.1).zipIdx.map
      fun (p, v) => ⟨v, p.2.1, p.2.2⟩ := by
  rw [onPoints, Network.onPoints, List.zipIdx_map, List.map_map]
  rfl

theorem of_toNetwork (hne : sheet.coordinates ≠ []) (h : sheet.toNetwork = .ok N) :
    (sheet.source ≠ 0 ∧ sheet.source ≤ sheet.coordinates.length) ∧
      (sheet.dimension = 0 ∨ sheet.coordinates.length = sheet.dimension) ∧
      N = sheet.onPoints := by
  have hempty : sheet.coordinates.isEmpty = false := by simpa using hne
  have hlength : ((sheet.coordinates.mergeSort fun p q => p.1 ≤ q.1).map (·.2)).length =
      sheet.coordinates.length := sheet.dimension_onPoints
  rw [toNetwork] at h
  split at h
  · cases h
  rename_i hsource
  simp only [hempty, Bool.false_eq_true, if_false] at h
  split at h
  · cases h
  rename_i hcount
  obtain ⟨M, hM, h⟩ := exists_of_bind_ok h
  obtain ⟨hlt, -, rfl⟩ := ofCoordinates_eq_ok_iff.1 hM
  rw [hlength] at hlt
  exact ⟨⟨hsource, by omega⟩, by omega, (Except.ok.inj h).symm⟩

theorem toNetwork_eq_ok {t : Nat} (hne : sheet.coordinates ≠ [])
    (hsource : sheet.source ≠ 0 ∧ sheet.source ≤ sheet.coordinates.length)
    (hcount : sheet.dimension = 0 ∨ sheet.coordinates.length = sheet.dimension)
    (hhorizon : sheet.horizon = some t) : sheet.toNetwork = .ok sheet.onPoints := by
  have hempty : sheet.coordinates.isEmpty = false := by simpa using hne
  have hlength : ((sheet.coordinates.mergeSort fun p q => p.1 ≤ q.1).map (·.2)).length =
      sheet.coordinates.length := sheet.dimension_onPoints
  have hlt : sheet.source - 1 <
      ((sheet.coordinates.mergeSort fun p q => p.1 ≤ q.1).map (·.2)).length := by
    rw [hlength]
    omega
  have hcount' : ¬ (sheet.dimension ≠ 0 ∧ sheet.coordinates.length ≠ sheet.dimension) := by
    omega
  have hgiven : sheet.horizon ≠ none := hhorizon ▸ Option.some_ne_none t
  rw [toNetwork, if_neg hsource.1]
  simp only [hempty, Bool.false_eq_true, if_false, if_neg hcount']
  rw [ofCoordinates_eq_ok_iff.2 ⟨hlt, fun hnone => absurd hnone hgiven, rfl⟩]
  rfl

end Sheet

theorem parse_of_read {text : String} {sheet : Sheet} {t : Nat}
    (hread : Sheet.read text = .ok sheet) (hne : sheet.coordinates ≠ [])
    (hsource : sheet.source ≠ 0 ∧ sheet.source ≤ sheet.coordinates.length)
    (hcount : sheet.dimension = 0 ∨ sheet.coordinates.length = sheet.dimension)
    (hhorizon : sheet.horizon = some t) : parse text = .ok sheet.onPoints := by
  rw [parse, hread]
  exact Sheet.toNetwork_eq_ok hne hsource hcount hhorizon

theorem rightUnique_pointWords : Relator.RightUnique PointWords := by
  rintro words p q ⟨id, x, y, more, rfl, hid, hx, hy⟩ ⟨id', x', y', more', hwords, hid', hx', hy'⟩
  obtain ⟨rfl, rfl, rfl, rfl⟩ : id = id' ∧ x = x' ∧ y = y' ∧ more = more' := by simpa using hwords
  rw [hid, Option.some.injEq] at hid'
  rw [hx, Option.some.injEq] at hx'
  rw [hy, Option.some.injEq] at hy'
  exact Prod.ext hid' (Prod.ext hx' hy')

/-- The vertices of a text with coordinate lines are the points of these lines in ascending order
of their ids, and the source is the one that `SOURCE` counts off in that order. Where the ids are
the numbers from one to the dimension, the point with an id is the vertex with that id. -/
theorem vertices_of_parse {text : String} {N : Network} (h : parse text = .ok N)
    (hne : pointLines .header (Text.lines text.toList) ≠ []) :
    ∃ points order,
      List.Forall₂ PointWords (pointLines .header (Text.lines text.toList)) points ∧
      InOrder points order ∧
      N.vertices = order.zipIdx.map (fun (p, v) => ⟨v, p.2.1, p.2.2⟩) ∧
      N.dimension = points.length ∧ N.source < N.dimension ∧
      SourceGiven (Text.lines text.toList) 1 (N.source + 1) ∧
      ((points.map (·.1)).Perm (List.range' 1 N.dimension) →
        (∀ p ∈ points, N.vertices[p.1 - 1]? = some ⟨p.1 - 1, p.2.1, p.2.2⟩) ∧
          ∃ p ∈ points, p.1 = N.source + 1) := by
  obtain ⟨sheet, hread, htoNetwork⟩ := exists_of_bind_ok h
  rw [Sheet.read_eq] at hread
  obtain ⟨points, hpoints, hcoordinates⟩ := Sheet.coordinates_of_readLines hread
  have hsource := Sheet.source_of_readLines hread
  have hfilled : sheet.coordinates = points := by rw [hcoordinates]; rfl
  have hpresent : sheet.coordinates ≠ [] := by
    rw [hfilled]
    rintro rfl
    exact hne (List.forall₂_nil_right_iff.1 hpoints)
  obtain ⟨⟨hzero, hle⟩, -, rfl⟩ := Sheet.of_toNetwork hpresent htoNetwork
  have hdimension := sheet.dimension_onPoints
  have hvertices := sheet.vertices_onPoints
  rw [hfilled] at hle hdimension hvertices
  have horder := inOrder_mergeSort points
  generalize (points.mergeSort fun p q => p.1 ≤ q.1) = order at horder hvertices
  have hid : sheet.onPoints.source + 1 = sheet.source := Nat.sub_add_cancel (by omega)
  refine ⟨points, order, hpoints, horder, hvertices, hdimension, by omega, ?_, fun hids => ?_⟩
  · rwa [hid]
  rw [hdimension] at hids
  constructor
  · intro p hp
    rw [hvertices, List.getElem?_map, List.getElem?_zipIdx, horder.getElem? hids hp, Nat.zero_add]
    rfl
  · have hmem : sheet.source ∈ points.map (·.1) := by
      rw [hids.mem_iff, List.mem_range'_1]
      omega
    obtain ⟨p, hp, hpid⟩ := List.mem_map.1 hmem
    exact ⟨p, hp, hpid.trans hid.symm⟩

def digitsValue (n : Nat) : Float :=
  Decimal.toFloat ⟨false, n, 0⟩

def shuffled : List (Nat × Float × Float) :=
  [(3, digitsValue 0, digitsValue 4), (1, digitsValue 0, digitsValue 0),
    (2, digitsValue 3, digitsValue 0)]

/-- The lines need not stand in the order of their ids. -/
theorem vertices_of_parse_shuffled :
    ∃ N, parse "SOURCE: 2\nTIME_HORIZON: 20\nNODE_COORD_SECTION\n3 0 4\n1 0 0\n2 3 0\n" = .ok N ∧
      N.vertices[0]? = some ⟨0, digitsValue 0, digitsValue 0⟩ ∧
      N.vertices[1]? = some ⟨1, digitsValue 3, digitsValue 0⟩ ∧
      N.vertices[2]? = some ⟨2, digitsValue 0, digitsValue 4⟩ := by
  have hread : Sheet.read "SOURCE: 2\nTIME_HORIZON: 20\nNODE_COORD_SECTION\n3 0 4\n1 0 0\n2 3 0\n" =
      .ok
        { source := 2
          horizon := some 20
          coordinates := shuffled
          current := .coordinates } := by rfl
  have hN := parse_of_read hread (List.cons_ne_nil _ _) (by decide) (.inl rfl) rfl
  have hlines : pointLines .header
      (Text.lines "SOURCE: 2\nTIME_HORIZON: 20\nNODE_COORD_SECTION\n3 0 4\n1 0 0\n2 3 0\n".toList) =
      [["3".toList, "0".toList, "4".toList], ["1".toList, "0".toList, "0".toList],
        ["2".toList, "3".toList, "0".toList]] := by decide +kernel
  have hwords : List.Forall₂ PointWords [["3".toList, "0".toList, "4".toList],
      ["1".toList, "0".toList, "0".toList], ["2".toList, "3".toList, "0".toList]] shuffled :=
     .cons ⟨_, _, _, _, rfl, rfl, rfl, rfl⟩ <| .cons ⟨_, _, _, _, rfl, rfl, rfl, rfl⟩ <|
      .cons ⟨_, _, _, _, rfl, rfl, rfl, rfl⟩ .nil
  obtain ⟨points, order, hpoints, -, -, hdimension, -, -, hids⟩ :=
    vertices_of_parse hN (by rw [hlines]; exact List.cons_ne_nil _ _)
  rw [hlines] at hpoints
  obtain rfl : shuffled = points := rightUnique_pointWords.forall₂ hwords hpoints
  obtain ⟨hvertices, -⟩ := hids (by rw [hdimension]; decide)
  simp only [shuffled, List.forall_mem_cons] at hvertices
  exact ⟨_, hN, hvertices.2.1, hvertices.2.2.1, hvertices.1⟩

/-- An id of zero is accepted, unlike in a section of edges, and moves the ids that follow: the
vertex that `SOURCE: 1` selects is not the point with the id one. -/
theorem source_of_zero_id :
    ∃ N, parse "SOURCE: 1\nTIME_HORIZON: 20\nNODE_COORD_SECTION\n0 0 0\n1 3 4\n" = .ok N ∧
      pointLines .header
          (Text.lines "SOURCE: 1\nTIME_HORIZON: 20\nNODE_COORD_SECTION\n0 0 0\n1 3 4\n".toList) =
        [["0".toList, "0".toList, "0".toList], ["1".toList, "3".toList, "4".toList]] ∧
      N.source = 0 ∧
      N.vertices = [⟨0, digitsValue 0, digitsValue 0⟩, ⟨1, digitsValue 3, digitsValue 4⟩] := by
  have hread : Sheet.read "SOURCE: 1\nTIME_HORIZON: 20\nNODE_COORD_SECTION\n0 0 0\n1 3 4\n" =
      .ok
        { source := 1
          horizon := some 20
          coordinates := [(0, digitsValue 0, digitsValue 0), (1, digitsValue 3, digitsValue 4)]
          current := .coordinates } := by rfl
  have hN := parse_of_read hread (List.cons_ne_nil _ _) (by decide) (.inl rfl) rfl
  refine ⟨_, hN, by decide +kernel, rfl, ?_⟩
  rw [Sheet.vertices_onPoints, List.mergeSort_of_pairwise (by decide)]
  rfl

end TourPricing.Network
