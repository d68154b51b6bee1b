import FunctionIndex.File.Path
import Mathlib.Data.List.Basic
import Mathlib.Data.List.Induction
import Mathlib.Data.List.Pairwise

/-! # Distinct paths

Of paths with the same components the first is kept in its place. What is kept is found by looking
at what stands before it, and a path that comes after the same one could as well not be given.
-/
namespace FunctionIndex.Path
set_option autoImplicit false

theorem same_iff (p q : Path) : p.same q = true ↔ p.components = q.components := beq_iff_eq

theorem same_refl (p : Path) : p.same p = true := (same_iff p p).mpr rfl

theorem same_congr {p q : Path} (h : p.same q = true) (r : Path) : p.same r = q.same r := by
  rw [same, same, (same_iff p q).mp h]

theorem same_comm (p q : Path) : p.same q = q.same p := by
  rw [Bool.eq_iff_iff, same_iff, same_iff, eq_comm]

/-- A choice that does not tell the same paths apart can be made before or after. -/
theorem filter_distinct {keep : Path → Bool}
    (hKeep : ∀ p q, p.same q = true → keep p = keep q) (paths : List Path) :
    (distinct paths).filter keep = distinct (paths.filter keep) := by
  induction paths with
  | nil => rfl
  | cons p paths ih =>
    rw [distinct_cons]
    by_cases h : keep p = true
    · rw [List.filter_cons_of_pos h, List.filter_cons_of_pos h, distinct_cons, ← ih,
        List.filter_comm]
    · -- Whatever is the same as `p` is not chosen either.
      have hOther : ∀ q ∈ distinct paths, keep q = true → (!p.same q) = true := by
        intro q _ hq
        rw [Bool.not_eq_true']
        by_contra hSame
        rw [Bool.not_eq_false] at hSame
        exact h ((hKeep p q hSame).trans hq)
      rw [List.filter_cons_of_neg h, List.filter_cons_of_neg h, ← ih, List.filter_filter]
      apply List.filter_congr
      intro q hq
      cases hChoice : keep q with
      | false => rfl
      | true => exact hOther q hq hChoice

theorem mem_distinct_iff (paths : List Path) (p : Path) :
    p ∈ distinct paths ↔
      ∃ before after, paths = before ++ p :: after ∧ ∀ q ∈ before, q.same p = false := by
  induction paths with
  | nil =>
    constructor
    · intro h
      cases h
    · rintro ⟨before, after, hPaths, -⟩
      exact absurd hPaths (by simp)
  | cons first paths ih =>
    rw [distinct_cons, List.mem_cons, List.mem_filter, ih]
    constructor
    · rintro (rfl | ⟨⟨before, after, rfl, hBefore⟩, hFirst⟩)
      · exact ⟨[], paths, rfl, fun _ h => absurd h List.not_mem_nil⟩
      · rw [Bool.not_eq_true'] at hFirst
        exact ⟨first :: before, after, rfl, List.forall_mem_cons.mpr ⟨hFirst, hBefore⟩⟩
    · rintro ⟨before, after, hPaths, hBefore⟩
      cases before with
      | nil => exact .inl (List.cons.inj hPaths).1.symm
      | cons other before =>
        obtain ⟨rfl, rfl⟩ := List.cons.inj hPaths
        obtain ⟨hFirst, hBefore⟩ := List.forall_mem_cons.mp hBefore
        exact .inr ⟨⟨before, after, rfl, hBefore⟩, by rw [hFirst, Bool.not_false]⟩

/-- The first path that is the same as `p`, when `p` itself or one before it is. -/
theorem exists_mem_distinct (before after : List Path) (p : Path) :
    ∃ q ∈ distinct (before ++ p :: after), q.same p = true ∧ (q ∈ before ∨ q = p) := by
  cases hFind : (before ++ [p]).find? (·.same p) with
  | none =>
    have hNone := List.find?_eq_none.mp hFind p (List.mem_append_right before List.mem_cons_self)
    exact absurd (same_refl p) hNone
  | some q =>
    obtain ⟨hSame, earlier, later, hSplit, hEarlier⟩ := List.find?_eq_some_iff_append.mp hFind
    have hMem : q ∈ before ++ [p] := List.mem_of_find?_eq_some hFind
    refine ⟨q, (mem_distinct_iff _ q).mpr ⟨earlier, later ++ after, ?_, ?_⟩, hSame, ?_⟩
    · rw [List.append_cons before p after, hSplit, List.append_assoc, List.cons_append]
    · intro other hOther
      have hDiffers := hEarlier other hOther
      rw [Bool.not_eq_true'] at hDiffers
      rw [same_comm, same_congr hSame, same_comm, hDiffers]
    · simpa using hMem

theorem distinct_append_cons_of_same {before : List Path} {p q : Path} (hq : q ∈ before)
    (hSame : q.same p = true) (after : List Path) :
    distinct (before ++ p :: after) = distinct (before ++ after) := by
  induction before with
  | nil => cases hq
  | cons first before ih =>
    rw [List.cons_append, List.cons_append, distinct_cons, distinct_cons]
    rcases List.mem_cons.mp hq with rfl | hq
    · have hKeep (a b : Path) (h : a.same b = true) : (!q.same a) = !q.same b := by
        rw [same_comm q a, same_comm q b, same_congr h]
      rw [filter_distinct hKeep, filter_distinct hKeep, List.filter_append, List.filter_append,
        List.filter_cons_of_neg (by rw [hSame]; decide)]
    · rw [ih hq]

theorem distinct_append_of_same {before extra : List Path}
    (h : ∀ p ∈ extra, ∃ q ∈ before, q.same p = true) (after : List Path) :
    distinct (before ++ extra ++ after) = distinct (before ++ after) := by
  induction extra with
  | nil => rw [List.append_nil]
  | cons p extra ih =>
    obtain ⟨hFirst, hRest⟩ := List.forall_mem_cons.mp h
    obtain ⟨q, hq, hSame⟩ := hFirst
    rw [List.append_assoc, List.cons_append, distinct_append_cons_of_same hq hSame,
      ← List.append_assoc, ih hRest]

theorem distinct_append_singleton_of_new {before : List Path} {p : Path}
    (h : ∀ q ∈ before, q.same p = false) : distinct (before ++ [p]) = distinct before ++ [p] := by
  induction before with
  | nil => rfl
  | cons first before ih =>
    obtain ⟨hFirst, hBefore⟩ := List.forall_mem_cons.mp h
    rw [List.cons_append, distinct_cons, distinct_cons, ih hBefore, List.filter_append,
      List.filter_cons_of_pos (by rw [hFirst]; decide)]
    rfl

/-- A path that comes last is kept unless it is the same as one before it. -/
theorem distinct_append_singleton (before : List Path) (p : Path) :
    distinct (before ++ [p]) =
      if before.any (·.same p) then distinct before else distinct before ++ [p] := by
  split
  · rename_i hSeen
    obtain ⟨q, hq, hSame⟩ := List.any_eq_true.mp hSeen
    rw [distinct_append_cons_of_same hq hSame, List.append_nil]
  · rename_i hNew
    apply distinct_append_singleton_of_new
    intro q hq
    rw [← Bool.not_eq_true]
    exact fun hSame => hNew (List.any_eq_true.mpr ⟨q, hq, hSame⟩)

/-- The paths in whose places no path before is the same. -/
def firsts (paths : List Path) : List Path :=
  (paths.zipIdx.filter fun item => !(paths.take item.2).any (·.same item.1)).map (·.1)

theorem firsts_append_singleton (before : List Path) (p : Path) :
    firsts (before ++ [p]) =
      if before.any (·.same p) then firsts before else firsts before ++ [p] := by
  have hBefore : before.zipIdx.filter
      (fun item => !((before ++ [p]).take item.2).any (·.same item.1)) =
      before.zipIdx.filter fun item => !(before.take item.2).any (·.same item.1) := by
    apply List.filter_congr
    intro item hItem
    rw [List.take_append_of_le_length (Nat.le_of_lt (List.snd_lt_of_mem_zipIdx hItem))]
  have hTake : (before ++ [p]).take before.length = before := List.take_left
  rw [firsts, List.zipIdx_append, List.filter_append, hBefore, List.map_append, firsts,
    List.zipIdx_singleton, Nat.zero_add, List.filter_singleton, hTake]
  cases before.any (·.same p) with
  | true => exact List.append_nil _
  | false => rfl

theorem distinct_eq_firsts (paths : List Path) : distinct paths = firsts paths := by
  induction paths using List.reverseRecOn with
  | nil => rfl
  | append_singleton before p ih =>
    rw [distinct_append_singleton, firsts_append_singleton, ih]

theorem distinct_sublist (paths : List Path) : (distinct paths).Sublist paths := by
  induction paths with
  | nil => exact List.Sublist.slnil
  | cons first paths ih =>
    rw [distinct_cons]
    exact (List.filter_sublist.trans ih).cons_cons first

theorem distinct_apart (paths : List Path) :
    (distinct paths).Pairwise fun p q => p.same q = false := by
  induction paths with
  | nil => exact List.Pairwise.nil
  | cons first paths ih =>
    rw [distinct_cons]
    refine List.pairwise_cons.mpr ⟨?_, ih.filter _⟩
    intro q hq
    simpa using (List.mem_filter.mp hq).2

theorem eq_of_same_of_mem_distinct {paths : List Path} {p q : Path} (hp : p ∈ distinct paths)
    (hq : q ∈ distinct paths) (h : p.same q = true) : p = q := by
  have hSymm : Std.Symm fun p q : Path => p.same q = false := ⟨fun p q h => same_comm p q ▸ h⟩
  by_contra hOther
  rw [(distinct_apart paths).forall hp hq hOther] at h
  cases h

theorem distinct_of_apart {paths : List Path}
    (h : paths.Pairwise fun p q => p.same q = false) : distinct paths = paths := by
  induction paths with
  | nil => rfl
  | cons first paths ih =>
    obtain ⟨hFirst, hRest⟩ := List.pairwise_cons.mp h
    rw [distinct_cons, ih hRest, List.filter_eq_self.mpr]
    intro q hq
    rw [hFirst q hq, Bool.not_false]

/-- What is kept for a path is the first one that is the same. -/
theorem find?_same_eq_some_iff {paths : List Path} {p : Path} (hp : p ∈ paths) (q : Path) :
    paths.find? (·.same p) = some q ↔ q ∈ distinct paths ∧ q.same p = true := by
  have hKept {q : Path} (h : paths.find? (·.same p) = some q) :
      q ∈ distinct paths ∧ q.same p = true := by
    obtain ⟨hSame, before, after, hPaths, hBefore⟩ := List.find?_eq_some_iff_append.mp h
    refine ⟨(mem_distinct_iff paths q).mpr ⟨before, after, hPaths, ?_⟩, hSame⟩
    intro other hOther
    rw [same_comm, same_congr hSame, same_comm]
    simpa using hBefore other hOther
  refine ⟨hKept, ?_⟩
  rintro ⟨hq, hSame⟩
  cases hFind : paths.find? (·.same p) with
  | none => exact absurd (same_refl p) (List.find?_eq_none.mp hFind p hp)
  | some first =>
    obtain ⟨hFirst, hFirstSame⟩ := hKept hFind
    rw [eq_of_same_of_mem_distinct hFirst hq (by rw [same_congr hFirstSame, same_comm, hSame])]

end FunctionIndex.Path
