import Ragged.Path

/-!
# Paths

The components of a path are not empty and hold no slash, and its text is taken apart into exactly these components.
So different paths have different texts, and the text of the parent is the part before the last slash. Slashes at the
ends of the name of a group mean nothing, and what lies in the group has its components and one more.
-/

namespace Ragged.Path

def Normal (p : Path) : Prop := ∀ part ∈ p, part ≠ "" ∧ '/' ∉ part.toList

theorem split_eq_splitOn (s : List Char) : split s = s.splitOn '/' := by
  induction s with
  | nil => rfl
  | cons c s ih =>
    rw [split, List.splitOn_cons_eq_if_modifyHead, ih]
    by_cases hc : c = '/'
    · simp [hc]
    · cases hs : s.splitOn '/' with
      | nil => exact absurd hs (List.splitOn_ne_nil _ _)
      | cons part parts => simp [hc]

theorem not_mem_of_mem_split {s part : List Char} (h : part ∈ split s) : '/' ∉ part := by
  induction s generalizing part with
  | nil => simp_all [split]
  | cons c s ih =>
    rw [split] at h
    by_cases hc : c = '/'
    · rw [if_pos hc] at h
      rcases List.mem_cons.mp h with rfl | h
      · simp
      · exact ih h
    · rw [if_neg hc] at h
      cases hs : split s with
      | nil => simp_all [Ne.symm hc]
      | cons first parts =>
        rw [hs] at h
        rcases List.mem_cons.mp h with rfl | h
        · simp [Ne.symm hc, ih (hs ▸ List.mem_cons_self)]
        · exact ih (hs ▸ List.mem_cons_of_mem _ h)

/-! ## Components of a text -/

def components (s : List Char) : List (List Char) := (split s).filter (· ≠ [])

theorem ofString_eq (s : String) : ofString s = (components s.toList).map String.ofList := rfl

theorem components_append (a b : List Char) : components (a ++ '/' :: b) = components a ++ components b := by
  simp [components, split_eq_splitOn, List.splitOn_append_cons_self]

@[simp] theorem components_nil : components [] = [] := rfl

@[simp] theorem components_slash (s : List Char) : components ('/' :: s) = components s := components_append [] s

@[simp] theorem components_append_slash (s : List Char) : components (s ++ ['/']) = components s := by
  simp [components_append s []]

theorem normal_ofString (s : String) : Normal (ofString s) := by
  intro part h
  obtain ⟨cs, hcs, rfl⟩ := List.mem_map.mp h
  obtain ⟨hsplit, hne⟩ := List.mem_filter.mp hcs
  constructor
  · intro he
    simp_all [← String.toList_inj]
  · rw [String.toList_ofList]
    exact not_mem_of_mem_split hsplit

/-! ## Texts of paths -/

theorem split_render {p : Path} (h : p.Normal) (hp : p ≠ []) : split p.render.toList = p.map String.toList := by
  rw [split_eq_splitOn, render, String.toList_intercalate]
  apply List.splitOn_intercalate
  · intro cs hcs
    obtain ⟨part, hpart, rfl⟩ := List.mem_map.mp hcs
    exact (h part hpart).2
  · simpa using hp

theorem ofString_render {p : Path} (h : p.Normal) : ofString p.render = p := by
  by_cases hp : p = []
  · subst hp
    rfl
  · have hall : ∀ cs ∈ p.map String.toList, cs ≠ [] := by
      intro cs hcs
      obtain ⟨part, hpart, rfl⟩ := List.mem_map.mp hcs
      simpa using (h part hpart).1
    rw [ofString, split_render h hp, List.filter_eq_self.mpr (by simpa using hall)]
    simp

theorem render_ne_empty {p : Path} (h : p.Normal) (hp : p ≠ []) : p.render ≠ "" := by
  intro he
  apply hp
  rw [← ofString_render h, he]
  rfl

/-! ## Parents -/

/-- The text before the last slash, and no text where there is none. -/
def beforeLastSlash (s : List Char) : List Char := ((s.reverse.dropWhile (· ≠ '/')).drop 1).reverse

theorem dropWhile_ne_slash {part : List Char} (h : '/' ∉ part) (s : List Char) :
    (part.reverse ++ s).dropWhile (· ≠ '/') = s.dropWhile (· ≠ '/') := by
  apply List.dropWhile_append_of_pos
  intro c hc
  exact decide_eq_true fun he => h (he ▸ List.mem_reverse.mp hc)

theorem beforeLastSlash_append (s : List Char) {part : List Char} (h : '/' ∉ part) :
    beforeLastSlash (s ++ '/' :: part) = s := by
  rw [beforeLastSlash, List.reverse_append, List.reverse_cons, List.append_assoc, dropWhile_ne_slash h]
  simp

theorem beforeLastSlash_part {part : List Char} (h : '/' ∉ part) : beforeLastSlash part = [] := by
  rw [beforeLastSlash, ← List.append_nil part.reverse, dropWhile_ne_slash h]
  rfl

/-- The parent of a path is written as the path is before its last slash. -/
theorem beforeLastSlash_render {p : Path} (h : p.Normal) :
    beforeLastSlash p.render.toList = p.parent.render.toList := by
  obtain rfl | ⟨q, last, hp⟩ := List.eq_nil_or_concat p
  · rfl
  · obtain rfl : p = q ++ [last] := hp.trans List.concat_eq_append
    have hlast : '/' ∉ last.toList := (h last (by simp)).2
    rw [parent, List.dropLast_concat]
    by_cases hq : q = []
    · subst hq
      rw [render, List.nil_append, String.intercalate_singleton, beforeLastSlash_part hlast]
      rfl
    · rw [render, String.intercalate_append_of_ne_nil hq (List.cons_ne_nil last []), String.intercalate_singleton,
        String.toList_append, String.toList_append, List.append_assoc]
      exact beforeLastSlash_append _ hlast

/-! ## Paths in a group -/

theorem components_dropWhile (s : List Char) : components (s.dropWhile (· = '/')) = components s := by
  induction s with
  | nil => rfl
  | cons c s ih =>
    by_cases hc : c = '/'
    · simp [hc, ih]
    · simp [hc]

theorem components_reverse_dropWhile (s : List Char) :
    components (s.dropWhile (· = '/')).reverse = components s.reverse := by
  induction s with
  | nil => rfl
  | cons c s ih =>
    by_cases hc : c = '/'
    · simp [hc, ih]
    · simp [hc]

@[simp] theorem ofString_trimSlashes (s : String) : ofString (trimSlashes s) = ofString s := by
  simp only [ofString_eq, trimSlashes, String.toList_ofList, components_reverse_dropWhile, List.reverse_reverse,
    components_dropWhile]

theorem ofString_child (group name : String) : ofString (child group name) = ofString group ++ ofString name := by
  unfold child
  by_cases hg : group = ""
  · subst hg
    rfl
  · rw [if_neg hg, show s!"{group}/{name}" = group ++ "/" ++ name from rfl]
    simp [ofString_eq, components_append]

theorem ofString_part {name : String} (hne : name ≠ "") (hslash : '/' ∉ name.toList) : ofString name = [name] := by
  have hnormal : Normal [name] := by
    intro part hpart
    rw [List.mem_singleton.mp hpart]
    exact ⟨hne, hslash⟩
  have h := ofString_render hnormal
  rwa [show render [name] = name from by simp [render]] at h

theorem ofString_member (g : String) {name : String} (hne : name ≠ "") (hslash : '/' ∉ name.toList) :
    ofString (child (trimSlashes g) name) = ofString g ++ [name] := by
  rw [ofString_child, ofString_trimSlashes, ofString_part hne hslash]

end Ragged.Path
