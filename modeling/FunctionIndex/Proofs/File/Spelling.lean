import FunctionIndex.Proofs.File.Distinct
import FunctionIndex.Proofs.File.Resolve
import Mathlib.Logic.Relation

/-! # Spellings of a path

The components of a path are told by whether it begins at the root, whether it begins with a dot,
and by its steps. What can be left out of its spelling without a change of these is a repeated
slash, a dot between two slashes, and a slash or a slash and a dot at the end. Two paths have the
same components exactly when one spelling is left of both.
-/
namespace FunctionIndex.Path
set_option autoImplicit false

/-- The first piece is a dot. -/
def beginsHere (path : Path) : Bool := path.pieces.head? == some "."

/-- Leaves one thing out of the spelling of a path. -/
inductive Shortens : Path → Path → Prop
  | slash (before after : String) : Shortens ⟨before ++ "//" ++ after⟩ ⟨before ++ "/" ++ after⟩
  | dot (before after : String) : Shortens ⟨before ++ "/./" ++ after⟩ ⟨before ++ "/" ++ after⟩
  | lastDot (before : String) : Shortens ⟨before ++ "/."⟩ ⟨before ++ "/"⟩
  | lastSlash (before : String) (h : before ≠ "") : Shortens ⟨before ++ "/"⟩ ⟨before⟩

abbrev ShortensTo : Path → Path → Prop := Relation.ReflTransGen Shortens

theorem filterMap_ofPiece?_steps (path : Path) :
    path.steps.filterMap Component.ofPiece? = path.pieces.filterMap Component.ofPiece? := by
  rw [steps, List.filterMap_filter]
  apply List.filterMap_congr
  intro piece _
  by_cases h : isStep piece = true
  · rw [if_pos h]
  · rw [if_neg h, Component.ofPiece?, if_pos (Classical.not_not.mp (mt (isStep_iff piece).mpr h))]

theorem components_eq (path : Path) :
    path.components =
      (if path.isRooted then [.root] else if path.beginsHere then [.current] else []) ++
        path.steps.filterMap Component.ofPiece? := by
  rw [filterMap_ofPiece?_steps, components]
  simp only [isRooted, beginsHere, beq_iff_eq]

theorem pieces_slash (before after : String) :
    (Path.mk (before ++ "/" ++ after)).pieces =
      (Path.mk before).pieces ++ (Path.mk after).pieces := by
  have hText : (before ++ "/" ++ after).toList = before.toList ++ '/' :: after.toList := by
    rw [String.toList_append, String.toList_append, List.append_assoc]
    rfl
  rw [pieces, hText, List.splitOn_append_cons_self, List.map_append]
  rfl

theorem pieces_ne_nil (path : Path) : path.pieces ≠ [] :=
  mt List.map_eq_nil_iff.mp (List.splitOn_ne_nil '/' _)

theorem steps_slash (before after : String) :
    (Path.mk (before ++ "/" ++ after)).steps = (Path.mk before).steps ++ (Path.mk after).steps := by
  rw [steps, pieces_slash, List.filter_append]
  rfl

theorem beginsHere_slash (before after : String) :
    (Path.mk (before ++ "/" ++ after)).beginsHere = (Path.mk before).beginsHere := by
  rw [beginsHere, pieces_slash, List.head?_append_of_ne_nil _ (pieces_ne_nil _)]
  rfl

theorem isRooted_slash (before after : String) :
    (Path.mk (before ++ "/" ++ after)).isRooted = (before == "" || (Path.mk before).isRooted) := by
  by_cases h : before = ""
  · subst h
    simp [isRooted]
  · have hHead : (before ++ "/" ++ after).toList.head? = before.toList.head? := by
      rw [String.append_assoc, String.toList_append,
        List.head?_append_of_ne_nil _ (by simpa using h)]
    rw [isRooted, hHead, beq_eq_false_iff_ne.mpr h, Bool.false_or]
    rfl

theorem beginsHere_of_isRooted {path : Path} (h : path.isRooted = true) :
    path.beginsHere = false := by
  rw [isRooted, beq_iff_eq, List.head?_eq_some_iff] at h
  obtain ⟨rest, hText⟩ := h
  rw [beginsHere, pieces, hText, List.splitOn_cons_eq_if_modifyHead, if_pos (beq_self_eq_true '/')]
  rfl

theorem beginsHere_iff (path : Path) : path.beginsHere = true ↔ .current ∈ path.components := by
  have hSteps : .current ∉ path.steps.filterMap Component.ofPiece? :=
    fun h => Bool.false_ne_true (isStep_of_mem_filterMap h)
  rw [components_eq, List.mem_append, or_iff_left hSteps]
  cases hRooted : path.isRooted with
  | true => simp [beginsHere_of_isRooted hRooted]
  | false => cases path.beginsHere <;> simp

/-- The same paths have the same steps and begin alike. -/
theorem same_iff_steps (p q : Path) :
    p.same q = true ↔
      p.isRooted = q.isRooted ∧ p.beginsHere = q.beginsHere ∧ p.steps = q.steps := by
  constructor
  · intro h
    obtain ⟨hSteps, hRooted⟩ := steps_eq_of_same h
    refine ⟨hRooted, ?_, hSteps⟩
    rw [Bool.eq_iff_iff, beginsHere_iff, beginsHere_iff, (same_iff p q).mp h]
  · rintro ⟨hRooted, hHere, hSteps⟩
    rw [same_iff, components_eq, components_eq, hRooted, hHere, hSteps]

theorem same_of_shortens {p q : Path} (h : Shortens p q) : p.same q = true := by
  have hEmpty : (Path.mk "").steps = [] := rfl
  have hDot : (Path.mk ".").steps = [] := rfl
  rw [same_iff_steps]
  cases h with
  | slash before after =>
    have hTwo : ("//" : String) = "/" ++ ("" ++ "/") := rfl
    have hText : before ++ "//" ++ after = before ++ "/" ++ ("" ++ "/" ++ after) := by
      rw [hTwo]
      simp only [String.append_assoc]
    simp only [hText, isRooted_slash, beginsHere_slash, steps_slash, hEmpty, List.nil_append,
      and_self]
  | dot before after =>
    have hThree : ("/./" : String) = "/" ++ ("." ++ "/") := rfl
    have hText : before ++ "/./" ++ after = before ++ "/" ++ ("." ++ "/" ++ after) := by
      rw [hThree]
      simp only [String.append_assoc]
    simp only [hText, isRooted_slash, beginsHere_slash, steps_slash, hDot, List.nil_append,
      and_self]
  | lastDot before =>
    have hText : before ++ "/." = before ++ "/" ++ "." := by
      rw [String.append_assoc]
      rfl
    have hSlash : before ++ "/" = before ++ "/" ++ "" := String.append_empty.symm
    rw [hText, isRooted_slash, beginsHere_slash, steps_slash, hDot, hSlash, isRooted_slash,
      beginsHere_slash, steps_slash, hEmpty]
    exact ⟨rfl, rfl, rfl⟩
  | lastSlash before hBefore =>
    have hText : before ++ "/" = before ++ "/" ++ "" := String.append_empty.symm
    rw [hText]
    simp only [isRooted_slash, beginsHere_slash, steps_slash, hEmpty, List.append_nil,
      beq_eq_false_iff_ne.mpr hBefore, Bool.false_or, and_self]

theorem same_of_shortensTo {p q : Path} (h : ShortensTo p q) : p.same q = true := by
  induction h with
  | refl => exact same_refl p
  | tail _ hStep ih => rw [same_congr ih, same_of_shortens hStep]

theorem text_eq_intercalate (path : Path) : path.text = String.intercalate "/" path.pieces := by
  apply String.toList_injective
  rw [String.toList_intercalate, pieces, List.map_map]
  have hId : String.toList ∘ String.ofList = id := funext fun _ => String.toList_ofList
  rw [hId, List.map_id]
  exact (List.intercalate_splitOn '/').symm

/-- A piece that stays in place is left out between two slashes. -/
theorem shortens_stay {piece : String} (h : isStep piece = false) (before after : String) :
    Shortens ⟨before ++ "/" ++ (piece ++ "/" ++ after)⟩ ⟨before ++ "/" ++ after⟩ := by
  have hText :
      before ++ "/" ++ (piece ++ "/" ++ after) = before ++ ("/" ++ piece ++ "/") ++ after := by
    simp only [String.append_assoc]
  rw [hText]
  rcases Classical.not_not.mp (mt (isStep_iff piece).mpr (by rw [h]; decide)) with rfl | rfl
  · exact .slash before after
  · exact .dot before after

/-- A piece that stays in place is left out at the end. -/
theorem shortensTo_slash {piece : String} (h : isStep piece = false) (before : String) :
    ShortensTo ⟨before ++ "/" ++ piece⟩ ⟨before ++ "/"⟩ := by
  rcases Classical.not_not.mp (mt (isStep_iff piece).mpr (by rw [h]; decide)) with rfl | rfl
  · rw [String.append_empty]
  · rw [String.append_assoc]
    exact .single (.lastDot before)

theorem intercalate_append_cons (start piece : String) (pieces : List String) :
    String.intercalate "/" ((start ++ "/" ++ piece) :: pieces) =
      String.intercalate "/" (start :: piece :: pieces) := by
  rw [String.intercalate_cons_append, String.intercalate_cons_cons]

/-- After a start that is not empty all pieces that stay in place can be left out. -/
theorem shortensTo_filter_isStep {start : String} (hStart : start ≠ "") (pieces : List String) :
    ShortensTo ⟨String.intercalate "/" (start :: pieces)⟩
      ⟨String.intercalate "/" (start :: pieces.filter isStep)⟩ := by
  induction pieces generalizing start with
  | nil => exact .refl
  | cons piece pieces ih =>
    cases hStep : isStep piece with
    | true =>
      have hLonger : start ++ "/" ++ piece ≠ "" := by simp [hStart]
      rw [List.filter_cons_of_pos hStep, ← intercalate_append_cons, ← intercalate_append_cons]
      exact ih hLonger
    | false =>
      rw [List.filter_cons_of_neg (by rw [hStep]; decide)]
      refine Relation.ReflTransGen.trans ?_ (ih hStart)
      cases pieces with
      | nil =>
        rw [String.intercalate_cons_cons, String.intercalate_singleton,
          String.intercalate_singleton]
        exact (shortensTo_slash hStep start).tail (.lastSlash start hStart)
      | cons next pieces =>
        rw [String.intercalate_cons_cons, String.intercalate_cons_cons,
          String.intercalate_cons_cons]
        exact .single (shortens_stay hStep start _)

theorem rooted_shortensTo_filter_isStep (pieces : List String) :
    ShortensTo ⟨"/" ++ String.intercalate "/" pieces⟩
      ⟨"/" ++ String.intercalate "/" (pieces.filter isStep)⟩ := by
  induction pieces with
  | nil => exact .refl
  | cons piece pieces ih =>
    cases hStep : isStep piece with
    | true =>
      rw [List.filter_cons_of_pos hStep, ← String.intercalate_cons_append,
        ← String.intercalate_cons_append]
      exact shortensTo_filter_isStep (by simp) pieces
    | false =>
      rw [List.filter_cons_of_neg (by rw [hStep]; decide)]
      refine Relation.ReflTransGen.trans ?_ ih
      cases pieces with
      | nil => exact shortensTo_slash hStep ""
      | cons next pieces =>
        rw [String.intercalate_cons_cons]
        exact .single (shortens_stay hStep "" _)

/-- The spelling that is left when all that stays in place is left out. -/
def plain (path : Path) : Path :=
  if path.isRooted then ⟨"/" ++ String.intercalate "/" path.steps⟩
  else if path.beginsHere then ⟨String.intercalate "/" ("." :: path.steps)⟩
  else ⟨String.intercalate "/" path.steps⟩

theorem plain_eq_of_same {p q : Path} (h : p.same q = true) : p.plain = q.plain := by
  obtain ⟨hRooted, hHere, hSteps⟩ := (same_iff_steps p q).mp h
  rw [plain, plain, hRooted, hHere, hSteps]

theorem shortensTo_plain_of_isRooted {path : Path} (h : path.isRooted = true) :
    ShortensTo path path.plain := by
  obtain ⟨chars, hChars⟩ : ∃ chars, path.text.toList = '/' :: chars := by
    rwa [isRooted, beq_iff_eq, List.head?_eq_some_iff] at h
  let inner : Path := ⟨String.ofList chars⟩
  have hText : path.text = "" ++ "/" ++ inner.text := by
    apply String.toList_injective
    rw [hChars, String.toList_append, String.toList_ofList]
    rfl
  have hSteps : path.steps = inner.steps := by
    have hSlash := steps_slash "" inner.text
    rwa [← hText] at hSlash
  have hPath : path = ⟨"/" ++ String.intercalate "/" inner.pieces⟩ := by
    rw [← text_eq_intercalate]
    exact congrArg Path.mk hText
  rw [plain, if_pos h, hSteps]
  conv_lhs => rw [hPath]
  exact rooted_shortensTo_filter_isStep inner.pieces

theorem shortensTo_plain_of_not_isRooted {path : Path} (h : path.isRooted = false) :
    ShortensTo path path.plain := by
  obtain ⟨first, rest, hPieces⟩ := List.exists_cons_of_ne_nil path.pieces_ne_nil
  have hText : path.text = String.intercalate "/" (first :: rest) := by
    rw [text_eq_intercalate, hPieces]
  have hPath : path = ⟨String.intercalate "/" (first :: rest)⟩ := congrArg Path.mk hText
  have hSteps : path.steps = (first :: rest).filter isStep := by rw [steps, hPieces]
  have hHere : path.beginsHere = true ↔ first = "." := by
    rw [beginsHere, hPieces, List.head?_cons, beq_iff_eq, Option.some.injEq]
  rw [plain, if_neg (by rw [h]; decide), hSteps]
  by_cases hFirst : first = ""
  · subst hFirst
    cases rest with
    | nil =>
      rw [if_neg (mt hHere.mp (by decide))]
      conv_lhs => rw [hPath]
      exact .refl
    | cons next rest =>
      -- A slash after nothing would make the path begin at the root.
      rw [hPath, String.intercalate_cons_cons, isRooted_slash] at h
      cases h
  · have hFilter := shortensTo_filter_isStep hFirst rest
    rw [← hPath] at hFilter
    by_cases hDot : first = "."
    · subst hDot
      rw [if_pos (hHere.mpr rfl), List.filter_cons_of_neg (by decide)]
      exact hFilter
    · have hStep : isStep first = true := (isStep_iff first).mpr (not_or.mpr ⟨hFirst, hDot⟩)
      rw [if_neg (mt hHere.mp hDot), List.filter_cons_of_pos hStep]
      exact hFilter

theorem shortensTo_plain (path : Path) : ShortensTo path path.plain := by
  cases h : path.isRooted with
  | true => exact shortensTo_plain_of_isRooted h
  | false => exact shortensTo_plain_of_not_isRooted h

/-- Two paths are the same exactly when both can be shortened to one spelling. -/
theorem same_iff_shortensTo (p q : Path) :
    p.same q = true ↔ ∃ r, ShortensTo p r ∧ ShortensTo q r := by
  constructor
  · intro h
    exact ⟨p.plain, shortensTo_plain p, plain_eq_of_same h ▸ shortensTo_plain q⟩
  · rintro ⟨r, hp, hq⟩
    rw [same_congr (same_of_shortensTo hp), same_comm, same_of_shortensTo hq]

/-- A dot counts only at the beginning, and a step upwards counts everywhere. -/
example :
    (Path.mk "a//b/./c/.").same ⟨"a/b/c"⟩ = true ∧ (Path.mk "./a").same ⟨"a"⟩ = false ∧
      (Path.mk "a/../b").same ⟨"b"⟩ = false := by decide

end FunctionIndex.Path
