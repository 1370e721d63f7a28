/-
What a path without dots leads to.

Following such a path is going down from place to place. It ends at what is there,
unless a directory on the way is asked for a name that is too long
(`FileTree.follow_cases`) or the path itself is too long to be looked up at all
(`FileSystem.find_cases`). What is read depends on the places on the way alone, so
trees that have the same there (`FileTree.AlikeOff`) are alike for whoever looks.
-/
import ExprLang.Proofs.Search
import Mathlib.Data.List.Infix

namespace ExprLang

/-! ## Places that can be looked up -/

namespace FileTree

/-- On the way to a place a directory is asked for a name that it does not have
and that is longer than names may be. -/
def Overlong (t : FileTree) (place : List String) : Prop :=
  ∃ dir name rest, place = dir ++ name :: rest ∧ t.view dir = some none ∧
    t.view (dir ++ [name]) = none ∧ Path.nameLimit < name.utf8ByteSize

variable {t node : FileTree} {trail : List FileTree} {entries : List (String × FileTree)}
  {name : String} {place rest more : List String}

theorem not_overlong_nil (t : FileTree) : ¬ t.Overlong [] := by
  rintro ⟨dir, name, rest, hplace, -⟩
  exact absurd hplace (by simp)

theorem not_overlong_file (text : String) (place : List String) : ¬ (file text).Overlong place := by
  rintro ⟨dir, name, rest, -, hdir, -⟩
  cases dir <;> simp [view, text?] at hdir

theorem overlong_dir : (dir entries).Overlong (name :: rest) ↔
    (entries.lookup name = none ∧ Path.nameLimit < name.utf8ByteSize) ∨
      ∃ entry, entries.lookup name = some entry ∧ entry.Overlong rest := by
  constructor
  · rintro ⟨dir, long, more, hplace, hdir, hnone, hlong⟩
    cases dir with
    | nil =>
      obtain ⟨rfl, rfl⟩ := List.cons.inj hplace
      rw [List.nil_append, view_dir, Option.bind_eq_none_iff] at hnone
      refine .inl ⟨?_, hlong⟩
      cases hl : entries.lookup name with
      | none => rfl
      | some entry => exact absurd (hnone entry hl) (by simp [view_nil])
    | cons first dir =>
      obtain ⟨rfl, rfl⟩ := List.cons.inj hplace
      rw [view_dir, Option.bind_eq_some_iff] at hdir
      obtain ⟨entry, hl, hdir⟩ := hdir
      rw [List.cons_append, view_dir, hl, Option.bind_some] at hnone
      exact .inr ⟨entry, hl, dir, long, more, rfl, hdir, hnone, hlong⟩
  · rintro (⟨hl, hlong⟩ | ⟨entry, hl, dir, long, more, rfl, hdir, hnone, hlong⟩)
    · exact ⟨[], name, rest, rfl, view_nil _, by rw [List.nil_append, view_dir, hl, Option.bind_none], hlong⟩
    · refine ⟨name :: dir, long, more, rfl, ?_, ?_, hlong⟩
      · rw [view_dir, hl, Option.bind_some, hdir]
      · rw [List.cons_append, view_dir, hl, Option.bind_some, hnone]

theorem Overlong.at? (h : t.Overlong place) : t.at? place = none := by
  obtain ⟨dir, name, rest, rfl, -, hnone, -⟩ := h
  rw [view, Option.map_eq_none_iff] at hnone
  rw [List.append_cons, at?_append, hnone, Option.bind_none]

theorem Overlong.mono (h : t.Overlong place) (hp : place <+: more) : t.Overlong more := by
  obtain ⟨dir, name, rest, rfl, hdir⟩ := h
  obtain ⟨last, rfl⟩ := hp
  exact ⟨dir, name, rest ++ last, by simp, hdir⟩

/-- A name that is not too long can be asked for anywhere. -/
theorem Overlong.of_concat (h : t.Overlong (place ++ [name])) (hname : name.utf8ByteSize ≤ Path.nameLimit) :
    t.Overlong place := by
  obtain ⟨dir, long, rest, hplace, hdir, hnone, hlong⟩ := h
  rcases List.eq_nil_or_concat rest with rfl | ⟨rest, last, rfl⟩
  · obtain ⟨-, hsame⟩ := List.append_inj' hplace rfl
    obtain rfl := List.singleton_inj.mp hsame
    exact absurd hlong (Nat.not_lt.mpr hname)
  · refine ⟨dir, long, rest, ?_, hdir, hnone, hlong⟩
    rw [List.concat_eq_append, ← List.cons_append, ← List.append_assoc] at hplace
    exact (List.append_inj' hplace rfl).1

/-- What is over anything is a directory. -/
theorem view_above (hp : place <+: more) (hne : place ≠ more) (h : t.view more ≠ none) :
    t.view place = some none := by
  obtain ⟨rest, rfl⟩ := hp
  cases rest with
  | nil => simp at hne
  | cons name rest =>
    rw [view, at?_append] at h
    rw [view]
    cases hat : t.at? place with
    | none => simp [hat] at h
    | some node =>
      cases node with
      | file text => simp [hat] at h
      | dir entries => rfl

/-- A path without dots leads to what is at its place; if nothing is there, a
name on the way may be too long. -/
theorem follow_cases (hdot : "." ∉ place) (hup : ".." ∉ place) (t : FileTree) (trail : List FileTree) :
    (∃ node, t.at? place = some node ∧ t.follow trail place = .ok node) ∨
    (t.Overlong place ∧ t.follow trail place = .error .overlong) ∨
    (t.at? place = none ∧ ¬ t.Overlong place ∧ t.follow trail place = .error .missing) := by
  induction place generalizing t trail with
  | nil => exact .inl ⟨t, at?_nil t, by rw [follow.eq_def]⟩
  | cons name rest ih =>
    rw [List.mem_cons, not_or] at hdot hup
    cases t with
    | file text => exact .inr (.inr ⟨rfl, not_overlong_file text _, rfl⟩)
    | dir entries =>
      simp only [follow, Ne.symm hdot.1, Ne.symm hup.1, if_false, at?_dir, overlong_dir]
      cases hl : entries.lookup name with
      | none =>
        by_cases hlong : Path.nameLimit < name.utf8ByteSize
        · simp [hlong]
        · simp [hlong]
      | some entry => simpa using ih hdot.2 hup.2 entry (.dir entries :: trail)

/-! ## Trees that are alike but for one entry -/

/-- The trees have the same at all places but those at and under one. -/
def AlikeOff (q : List String) (t t' : FileTree) : Prop := ∀ place, ¬ q <+: place → t.view place = t'.view place

variable {t' : FileTree} {q : List String}

theorem AlikeOff.symm (h : AlikeOff q t t') : AlikeOff q t' t := fun place hq => (h place hq).symm

/-- A file that is put in place of another one, or of nothing, changes no more. -/
theorem AlikeBut.alikeOff (h : AlikeBut q t t') : AlikeOff q t t' :=
  fun place hq => h.others place fun he => hq (he ▸ List.prefix_rfl)

theorem AlikeOff.overlong (h : AlikeOff q t t') (hq : ¬ q <+: place) (hlong : t.Overlong place) :
    t'.Overlong place := by
  obtain ⟨dir, name, rest, rfl, hdir, hnone, hname⟩ := hlong
  have hsame {p : List String} (hp : p <+: dir ++ name :: rest) : t.view p = t'.view p :=
    h p fun hqp => hq (hqp.trans hp)
  refine ⟨dir, name, rest, rfl, ?_, ?_, hname⟩
  · rw [← hsame (List.prefix_append _ _), hdir]
  · rw [← hsame ⟨rest, by simp⟩, hnone]

end FileTree

namespace Path

variable {place more : List String} {name : String}

/-- A place in writing, from the root. -/
def inWriting (place : List String) : String := toString ⟨true, place⟩

theorem size_intercalate_le (h : place.Sublist more) :
    ("/".intercalate place).utf8ByteSize ≤ ("/".intercalate more).utf8ByteSize := by
  induction h with
  | slnil => exact Nat.le_refl _
  | @cons xs ys y h ih =>
    cases ys with
    | nil => exact Nat.le_trans ih (Nat.zero_le _)
    | cons z ys =>
      rw [String.intercalate_cons_cons, String.utf8ByteSize_append]
      omega
  | @cons_cons xs ys y h ih =>
    cases xs with
    | nil =>
      cases ys with
      | nil => exact Nat.le_refl _
      | cons z ys =>
        rw [String.intercalate_cons_cons, String.intercalate_singleton, String.utf8ByteSize_append,
          String.utf8ByteSize_append]
        omega
    | cons x xs =>
      cases ys with
      | nil => cases h
      | cons z ys =>
        rw [String.intercalate_cons_cons, String.intercalate_cons_cons, String.utf8ByteSize_append,
          String.utf8ByteSize_append, String.utf8ByteSize_append, String.utf8ByteSize_append]
        omega

theorem size_inWriting_le (h : place.Sublist more) :
    (inWriting place).utf8ByteSize ≤ (inWriting more).utf8ByteSize := by
  simp only [inWriting, toString, if_true, String.utf8ByteSize_append]
  exact Nat.add_le_add_left (size_intercalate_le h) _

theorem mem_intercalate (c : Char) (hc : c ≠ '/') (parts : List String) :
    c ∈ ("/".intercalate parts).toList ↔ ∃ part ∈ parts, c ∈ part.toList := by
  induction parts with
  | nil => simp
  | cons x parts ih =>
    cases parts with
    | nil => simp
    | cons y parts =>
      rw [String.intercalate_cons_cons, String.toList_append, String.toList_append, List.mem_append,
        List.mem_append, ih]
      simp [hc]

theorem hasZeroChar_toString (p : Path) :
    hasZeroChar p.toString = true ↔ ∃ part ∈ p.parts, hasZeroChar part = true := by
  have hjoined := mem_intercalate '\x00' (by decide) p.parts
  simp only [hasZeroChar, List.contains_iff_mem, toString]
  by_cases habsolute : p.absolute = true
  · rw [if_pos habsolute, String.toList_append, List.mem_append, hjoined]
    simp
  · rw [if_neg habsolute]
    by_cases hparts : p.parts = []
    · simp [hparts]
    · rw [if_neg (by simpa using hparts), hjoined]

/-- A name without a slash is the path of one component. -/
theorem ofString_of_notMem (hslash : '/' ∉ name.toList) (hempty : name ≠ "") (hdot : name ≠ ".") :
    ofString name = ⟨false, [name]⟩ := by
  have hrooted : isRooted name = false := by
    rw [isRooted, decide_eq_false_iff_not]
    exact fun h => hslash (List.mem_of_mem_head? h)
  have hwritten : written name = [name] := by
    simp [written, pieces_of_notMem hslash, hempty]
  simp [ofString, hrooted, hwritten, hdot]

/-- Names that lead downwards and that can be asked for. -/
structure Plain (place : List String) : Prop where
  dot : "." ∉ place
  up : ".." ∉ place
  zero : ∀ name ∈ place, hasZeroChar name = false

theorem Plain.of_sublist (h : Plain more) (hs : place.Sublist more) : Plain place :=
  ⟨fun hm => h.dot (hs.subset hm), fun hm => h.up (hs.subset hm), fun name hm => h.zero name (hs.subset hm)⟩

theorem Plain.concat (h : Plain place) (hname : Plain [name]) : Plain (place ++ [name]) := by
  refine ⟨fun hm => ?_, fun hm => ?_, fun n hm => ?_⟩
  · exact (List.mem_append.mp hm).elim h.dot hname.dot
  · exact (List.mem_append.mp hm).elim h.up hname.up
  · exact (List.mem_append.mp hm).elim (h.zero n) (hname.zero n)

/-- A place is not too long in writing. -/
def Fits (place : List String) : Prop := (inWriting place).utf8ByteSize ≤ textLimit

theorem Fits.of_sublist (h : Fits more) (hs : place.Sublist more) : Fits place :=
  Nat.le_trans (size_inWriting_le hs) h

theorem Plain.fault?_eq (h : Plain place) :
    fault? (inWriting place) = if textLimit < (inWriting place).utf8ByteSize then some .overlong else none := by
  have hzero : hasZeroChar (inWriting place) = false := by
    rw [← Bool.not_eq_true, inWriting, hasZeroChar_toString]
    rintro ⟨part, hpart, hz⟩
    rw [h.zero part hpart] at hz
    cases hz
  have hne : (inWriting place).isEmpty = false := by
    simp [inWriting, toString]
  simp only [fault?, hne, hzero, Bool.false_eq_true, if_false]

theorem mem_collapse {parts : List String} (h : name ∈ collapse parts) : name ∈ parts ∧ name ≠ ".." := by
  suffices hfold : ∀ done : List String,
      name ∈ parts.foldl (fun done p => if p = ".." then done.dropLast else done ++ [p]) done →
        name ∈ done ∨ name ∈ parts ∧ name ≠ ".." by
    exact (hfold [] h).resolve_left (by simp)
  clear h
  induction parts with
  | nil => exact fun done h => .inl h
  | cons p parts ih =>
    intro done h
    rw [List.foldl_cons] at h
    rcases ih _ h with hd | ⟨hp, hne⟩
    · split at hd
      · exact .inl (List.mem_of_mem_dropLast hd)
      · rcases List.mem_append.mp hd with hd | hd
        · exact .inl hd
        · obtain rfl := List.mem_singleton.mp hd
          exact .inr ⟨List.mem_cons_self, by assumption⟩
    · exact .inr ⟨List.mem_cons_of_mem _ hp, hne⟩

end Path

namespace FileSystem

variable {fs : FileSystem} {place : List String}

/-- The working directory is written in names. -/
structure Named (fs : FileSystem) : Prop where
  dot : "." ∉ fs.workingDir
  zero : ∀ name ∈ fs.workingDir, Path.hasZeroChar name = false

theorem Named.plain_resolve (h : fs.Named) {text : String}
    (hzero : Path.hasZeroChar (Path.ofString text).toString = false) :
    Path.Plain (fs.resolve (.ofString text)) := by
  have hmem {name : String} (hm : name ∈ fs.resolve (.ofString text)) :
      (name ∈ (Path.ofString text).parts ∨ name ∈ fs.workingDir) ∧ name ≠ ".." := by
    obtain ⟨hm, hne⟩ := Path.mem_collapse hm
    refine ⟨?_, hne⟩
    split at hm
    · exact .inl hm
    · exact (List.mem_append.mp hm).symm
  refine ⟨fun hm => ?_, fun hm => (hmem hm).2 rfl, fun name hm => ?_⟩
  · exact (hmem hm).1.elim (Path.dot_notMem_parts_ofString text) h.dot
  · rcases (hmem hm).1 with hm | hm
    · rw [← Bool.not_eq_true] at hzero ⊢
      exact fun hz => hzero ((Path.hasZeroChar_toString _).mpr ⟨name, hm, hz⟩)
    · exact h.zero name hm

/-- What looking up a place from the root comes to. -/
theorem find_cases (h : Path.Plain place) (fs : FileSystem) :
    (∃ node, Path.Fits place ∧ fs.root.at? place = some node ∧ fs.find ⟨true, place⟩ = .ok node) ∨
    ((¬ Path.Fits place ∨ fs.root.Overlong place) ∧ fs.find ⟨true, place⟩ = .error .overlong) ∨
    (Path.Fits place ∧ fs.root.at? place = none ∧ ¬ fs.root.Overlong place ∧
      fs.find ⟨true, place⟩ = .error .missing) := by
  by_cases hfits : Path.Fits place
  · have hfault : Path.fault? (Path.toString ⟨true, place⟩) = none :=
      h.fault?_eq.trans (if_neg (Nat.not_lt.mpr hfits))
    have hfind : fs.find ⟨true, place⟩ = fs.root.follow [] place := by
      simp only [find, follow, hfault, if_true]
    rw [hfind]
    obtain ⟨node, hat, hfollow⟩ | ⟨hlong, hfollow⟩ | ⟨hat, hlong, hfollow⟩ :=
      FileTree.follow_cases h.dot h.up fs.root []
    · exact .inl ⟨node, hfits, hat, hfollow⟩
    · exact .inr (.inl ⟨.inr hlong, hfollow⟩)
    · exact .inr (.inr ⟨hfits, hat, hlong, hfollow⟩)
  · have hfault : Path.fault? (Path.toString ⟨true, place⟩) = some .overlong :=
      h.fault?_eq.trans (if_pos (Nat.not_le.mp hfits))
    exact .inr (.inl ⟨.inl hfits, by simp only [find, follow, hfault]⟩)

end FileSystem

end ExprLang
