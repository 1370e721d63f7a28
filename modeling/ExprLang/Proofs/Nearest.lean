/-
The settings file that counts is the nearest one, and no other one matters.

The search for settings goes through the directory to start from and those above
it (`Settings.find_cases`), and looks at no more than what is at the start and
whether the settings files up to the first one are there
(`Settings.Found.transport`). Main statement: `Settings.discover_nearest`.
-/
import ExprLang.Proofs.PlainPaths
import ExprLang.Settings.Discovery

namespace ExprLang

namespace Settings

/-! ## The walk upwards -/

/-- There is an entry of the name of a settings file in a directory. -/
def Holds (t : FileTree) (dir : List String) : Prop := t.view (dir ++ [fileName]) ≠ none

instance (t : FileTree) (dir : List String) : Decidable (Holds t dir) := inferInstanceAs (Decidable (_ ≠ _))

/-- The nearest directory with a settings file: it is `dir` or above it, and none
of those that have one is further down. -/
structure Nearest (t : FileTree) (dir d : List String) : Prop where
  above : d <+: dir
  holds : Holds t d
  deepest : ∀ d', d' <+: dir → Holds t d' → d' <+: d

/-- What there is to be found from a directory upwards. -/
inductive Found (t : FileTree) (dir : List String) : Option (List String) → Prop
  | nearest {d : List String} : Nearest t dir d → Found t dir (some (d ++ [fileName]))
  | nothing : (∀ d, d <+: dir → ¬ Holds t d) → Found t dir none

/-- The directory to start from: the one that a file is in, and otherwise the
place itself, whether or not anything is there. -/
def home (fs : FileSystem) (start : Path) : List String :=
  match fs.root.view (fs.resolve start) with
  | some (some _) => (fs.resolve start).dropLast
  | some none | none => fs.resolve start

/-- Why no search is made from a place: there is a zero character in its path, or
the place or the settings file next to it is too long to be looked up. -/
inductive Refused (fs : FileSystem) (start : Path) : PathError → Prop
  | zeroChar : Path.hasZeroChar start.toString = true → Refused fs start .zeroChar
  | overlong : Path.hasZeroChar start.toString = false →
      ¬ Path.Fits (fs.resolve start) ∨ fs.root.Overlong (fs.resolve start) ∨
        ¬ Path.Fits (home fs start ++ [fileName]) → Refused fs start .overlong

variable {fs fs' : FileSystem} {t t' : FileTree} {dir d d' x : List String} {name : String}
  {found : Option (List String)} {start : Path}

theorem Nearest.unique (h : Nearest t dir d) (h' : Nearest t dir d') : d = d' :=
  (h'.deepest d h.above h.holds).eq_of_length_le (h.deepest d' h'.above h'.holds).length_le

theorem Found.unique {found' : Option (List String)} (h : Found t dir found) (h' : Found t dir found') :
    found = found' := by
  cases h with
  | nearest h =>
    cases h' with
    | nearest h' => rw [h.unique h']
    | nothing h' => exact absurd h.holds (h' _ h.above)
  | nothing h =>
    cases h' with
    | nearest h' => exact absurd h'.holds (h _ h'.above)
    | nothing => rfl

theorem Refused.unique {e e' : PathError} (h : Refused fs start e) (h' : Refused fs start e') : e = e' := by
  cases h with
  | zeroChar h =>
    cases h' with
    | zeroChar => rfl
    | overlong h' => rw [h] at h'; cases h'
  | overlong h =>
    cases h' with
    | zeroChar h' => rw [h] at h'; cases h'
    | overlong => rfl

theorem Nearest.of_holds (h : Holds t dir) : Nearest t dir dir := ⟨List.prefix_rfl, h, fun _ hd _ => hd⟩

/-- Without a settings file in the last directory those that have one are above it. -/
theorem above_of_holds (hnot : ¬ Holds t (dir ++ [name])) (hd : d <+: dir ++ [name]) (hholds : Holds t d) :
    d <+: dir := by
  rcases List.prefix_concat_iff.mp hd with rfl | hd
  · exact absurd hholds hnot
  · exact hd

theorem Nearest.concat (h : Nearest t dir d) (hnot : ¬ Holds t (dir ++ [name])) :
    Nearest t (dir ++ [name]) d where
  above := h.above.trans (List.prefix_append _ _)
  holds := h.holds
  deepest := fun d' hd hholds => h.deepest d' (above_of_holds hnot hd hholds) hholds

theorem Found.nil (h : ¬ Holds t []) : Found t [] none :=
  .nothing fun d hd => by rwa [List.prefix_nil.mp hd]

/-- A directory without a settings file passes on what there is above it. -/
theorem Found.concat (h : Found t dir found) (hnot : ¬ Holds t (dir ++ [name])) :
    Found t (dir ++ [name]) found := by
  cases h with
  | nearest h => exact .nearest (h.concat hnot)
  | nothing h => exact .nothing fun d hd hholds => h d (above_of_holds hnot hd hholds) hholds

theorem ancestors_nil : ancestors [] = [[]] := rfl

theorem ancestors_concat (dir : List String) (name : String) :
    ancestors (dir ++ [name]) = (dir ++ [name]) :: ancestors dir := by
  have hlength : (dir ++ [name]).length = dir.length + 1 := by simp
  have htake : ∀ i ∈ (List.range (dir.length + 1)).reverse, (dir ++ [name]).take i = dir.take i := by
    intro i hi
    rw [List.mem_reverse, List.mem_range] at hi
    exact List.take_append_of_le_length (Nat.le_of_lt_succ hi)
  rw [ancestors, hlength, List.range_succ, List.reverse_append, List.reverse_singleton, List.singleton_append,
    List.map_cons, List.map_congr_left htake, List.take_of_length_le (Nat.le_of_eq hlength), ancestors]

theorem ancestors_eq_cons (dir : List String) : ∃ more, ancestors dir = dir :: more := by
  cases dir using List.reverseRecOn with
  | nil => exact ⟨[], ancestors_nil⟩
  | append_singleton dir name => exact ⟨_, ancestors_concat dir name⟩

theorem plain_fileName : Path.Plain [fileName] := ⟨by decide, by decide, by decide⟩

/-- The candidate in a directory is taken if it is there. -/
theorem firstIn_of_holds (hplain : Path.Plain dir) (hfits : Path.Fits (dir ++ [fileName]))
    (hholds : Holds fs.root dir) (more : List (List String)) :
    firstIn fs (dir :: more) = .ok (some (dir ++ [fileName])) := by
  rw [Holds, FileTree.view, Ne, Option.map_eq_none_iff] at hholds
  obtain ⟨node, -, -, hfind⟩ | ⟨hlong, -⟩ | ⟨-, hat, -⟩ := FileSystem.find_cases (hplain.concat plain_fileName) fs
  · simp only [firstIn, hfind]
  · exact (hlong.elim (absurd hfits) fun hlong => absurd hlong.at? hholds)
  · exact absurd hat hholds

/-- If it is not there, the search goes on. -/
theorem firstIn_of_not_holds (hplain : Path.Plain dir) (hfits : Path.Fits (dir ++ [fileName]))
    (hlong : ¬ fs.root.Overlong dir) (hnot : ¬ Holds fs.root dir) (more : List (List String)) :
    firstIn fs (dir :: more) = firstIn fs more := by
  rw [Holds, FileTree.view, Ne, Option.map_eq_none_iff, not_not] at hnot
  obtain ⟨node, -, hat, -⟩ | ⟨hrefused, -⟩ | ⟨-, -, -, hfind⟩ :=
    FileSystem.find_cases (hplain.concat plain_fileName) fs
  · rw [hnot] at hat
    cases hat
  · exact hrefused.elim (absurd hfits) fun h => absurd (h.of_concat (by decide)) hlong
  · simp only [firstIn, hfind]

/-- If it cannot be looked up, the search is over. -/
theorem firstIn_of_not_fits (hplain : Path.Plain dir) (hfits : ¬ Path.Fits (dir ++ [fileName]))
    (more : List (List String)) : firstIn fs (dir :: more) = .error .overlong := by
  obtain ⟨node, hfits', -⟩ | ⟨-, hfind⟩ | ⟨hfits', -⟩ := FileSystem.find_cases (hplain.concat plain_fileName) fs
  · exact absurd hfits' hfits
  · simp only [firstIn, hfind]
  · exact absurd hfits' hfits

/-- From a directory upwards the nearest settings file is found. -/
theorem firstIn_ancestors (hplain : Path.Plain dir) (hfits : Path.Fits (dir ++ [fileName]))
    (hlong : ¬ fs.root.Overlong dir) :
    ∃ found, Found fs.root dir found ∧ firstIn fs (ancestors dir) = .ok found := by
  induction dir using List.reverseRecOn with
  | nil =>
    rw [ancestors_nil]
    by_cases hholds : Holds fs.root []
    · exact ⟨_, .nearest (.of_holds hholds), firstIn_of_holds hplain hfits hholds _⟩
    · exact ⟨_, .nil hholds, firstIn_of_not_holds hplain hfits hlong hholds _⟩
  | append_singleton dir name ih =>
    rw [ancestors_concat]
    by_cases hholds : Holds fs.root (dir ++ [name])
    · exact ⟨_, .nearest (.of_holds hholds), firstIn_of_holds hplain hfits hholds _⟩
    · have hparent : (dir ++ [fileName]).Sublist (dir ++ [name] ++ [fileName]) :=
        List.Sublist.append_right (List.sublist_append_left _ _) _
      obtain ⟨found, hfound, hfirst⟩ := ih (hplain.of_sublist (List.sublist_append_left _ _))
        (hfits.of_sublist hparent) fun h => hlong (h.mono (List.prefix_append _ _))
      exact ⟨found, hfound.concat hholds, (firstIn_of_not_holds hplain hfits hlong hholds _).trans hfirst⟩

/-- The place of a start is the directory to start from, or that of a file in it. -/
theorem home_cases (fs : FileSystem) (start : Path) :
    home fs start = fs.resolve start ∨ home fs start = (fs.resolve start).dropLast := by
  unfold home
  split
  · exact .inr rfl
  · exact .inl rfl
  · exact .inl rfl

theorem home_above (fs : FileSystem) (start : Path) : home fs start <+: fs.resolve start := by
  rcases home_cases fs start with h | h
  · rw [h]
  · rw [h]
    exact List.dropLast_prefix _

theorem startDir_of_zeroChar (hzero : Path.hasZeroChar start.toString = true) :
    startDir fs start = .error .zeroChar := by
  rw [startDir, if_pos hzero]

/-- The directory to start from, unless the place cannot be looked up. -/
theorem startDir_cases (hzero : Path.hasZeroChar start.toString = false) (hplain : Path.Plain (fs.resolve start)) :
    ((¬ Path.Fits (fs.resolve start) ∨ fs.root.Overlong (fs.resolve start)) ∧
      startDir fs start = .error .overlong) ∨
    (Path.Fits (fs.resolve start) ∧ ¬ fs.root.Overlong (fs.resolve start) ∧
      startDir fs start = .ok (home fs start)) := by
  obtain ⟨node, hfits, hat, hfind⟩ | ⟨hrefused, hfind⟩ | ⟨hfits, hat, hlong, hfind⟩ := FileSystem.find_cases hplain fs
  · refine .inr ⟨hfits, fun h => by simp [h.at?] at hat, ?_⟩
    simp only [startDir, hzero, Bool.false_eq_true, if_false, hfind, home, FileTree.view, hat]
    cases node <;> rfl
  · refine .inl ⟨hrefused, ?_⟩
    simp only [startDir, hzero, Bool.false_eq_true, if_false, hfind]
  · refine .inr ⟨hfits, hlong, ?_⟩
    simp only [startDir, hzero, Bool.false_eq_true, if_false, hfind, home, FileTree.view, hat]
    rfl

/-- What a search comes to: it is refused, or finds what there is to be found from
the directory to start from upwards. -/
theorem find_cases (hfs : fs.Named) (text : String) :
    (∃ e, Refused fs (.ofString text) e ∧ find fs (.ofString text) = .error e) ∨
    ((∀ e, ¬ Refused fs (.ofString text) e) ∧
      ∃ found, Found fs.root (home fs (.ofString text)) found ∧ find fs (.ofString text) = .ok found) := by
  by_cases hzero : Path.hasZeroChar (Path.ofString text).toString = true
  · exact .inl ⟨.zeroChar, .zeroChar hzero, by rw [find, startDir_of_zeroChar hzero]; rfl⟩
  rw [Bool.not_eq_true] at hzero
  have hplain := hfs.plain_resolve hzero
  have hhome := home_above fs (.ofString text)
  obtain ⟨hrefused, hstart⟩ | ⟨hfits, hlong, hstart⟩ := startDir_cases hzero hplain
  · exact .inl ⟨.overlong, .overlong hzero (hrefused.imp_right .inl), by rw [find, hstart]; rfl⟩
  have hfind : find fs (.ofString text) = firstIn fs (ancestors (home fs (.ofString text))) := by
    rw [find, hstart]
    rfl
  have hplain' := hplain.of_sublist hhome.sublist
  by_cases hnext : Path.Fits (home fs (.ofString text) ++ [fileName])
  · obtain ⟨found, hfound, hfirst⟩ := firstIn_ancestors hplain' hnext fun h => hlong (h.mono hhome)
    refine .inr ⟨fun e h => ?_, found, hfound, hfind.trans hfirst⟩
    cases h with
    | zeroChar h => rw [hzero] at h; cases h
    | overlong _ h => exact h.elim (absurd hfits) fun h => h.elim hlong (absurd hnext)
  · obtain ⟨more, hmore⟩ := ancestors_eq_cons (home fs (.ofString text))
    refine .inl ⟨.overlong, .overlong hzero (.inr (.inr hnext)), ?_⟩
    rw [hfind, hmore, firstIn_of_not_fits hplain' hnext]

/-- What is loaded is told by what is at the place. -/
theorem load_eq {place : List String} (hplain : Path.Plain place) (hfits : Path.Fits place) :
    load fs place = match fs.root.view place with
      | some (some source) => ofSource (Path.inWriting place) source
      | some none | none => .error .unreadable := by
  rw [load, FileSystem.find?, FileTree.view]
  obtain ⟨node, -, hat, hfind⟩ | ⟨hrefused, hfind⟩ | ⟨-, hat, -, hfind⟩ := FileSystem.find_cases hplain fs
  · rw [hfind, hat]
    cases node <;> rfl
  · rw [hfind, (hrefused.resolve_left (not_not.mpr hfits)).at?]
    rfl
  · rw [hfind, hat]
    rfl

/-! ## What does not matter -/

/-- A directory whose settings file is not looked for, as it is not among those
from `dir` upwards, or further up than the nearest one that has one. -/
def Other (t : FileTree) (dir x : List String) : Prop :=
  ¬ x <+: dir ∨ ∃ d, Nearest t dir d ∧ x <+: d ∧ x ≠ d

/-- An entry that is in another directory and no directory itself is not on the way. -/
theorem Other.off_dir (h : Other t dir x)
    (hway : ¬ (x ++ [fileName] <+: dir ∧ t.view (x ++ [fileName]) = some none)) : ¬ x ++ [fileName] <+: dir := by
  intro hq
  rcases h with hx | ⟨d, hd, hx, hne⟩
  · exact hx ((List.prefix_append _ _).trans hq)
  · refine hway ⟨hq, ?_⟩
    have hlt : x.length < d.length :=
      Nat.lt_of_le_of_ne hx.length_le fun hlen => hne (hx.eq_of_length hlen)
    have hqd : x ++ [fileName] <+: d :=
      List.prefix_of_prefix_length_le hq hd.above (by simpa using Nat.succ_le_of_lt hlt)
    exact FileTree.view_above (hqd.trans (List.prefix_append d [fileName]))
      (fun he => hne (List.append_inj' he rfl).1) hd.holds

/-- What a start leads to is not in the entry, as far as anything is there. -/
theorem Other.off_concat (h : Other t dir x) (hq : ¬ x ++ [fileName] <+: dir) (name : String) :
    ¬ x ++ [fileName] <+: dir ++ [name] := by
  intro hq'
  rcases List.prefix_concat_iff.mp hq' with heq | hq'
  · obtain ⟨rfl, -⟩ := List.append_inj' heq rfl
    rcases h with hx | ⟨d, hd, hx, hne⟩
    · exact hx List.prefix_rfl
    · exact hne (hx.eq_of_length_le hd.above.length_le)
  · exact hq hq'

/-- Nor is a settings file that is looked for. -/
theorem Other.off_settings (h : Other t dir x) (hq : ¬ x ++ [fileName] <+: dir) (hd : d <+: dir)
    (hdown : ∀ d', Nearest t dir d' → d' <+: d) : ¬ x ++ [fileName] <+: d ++ [fileName] := by
  intro hq'
  rcases List.prefix_concat_iff.mp hq' with heq | hq'
  · obtain ⟨rfl, -⟩ := List.append_inj' heq rfl
    rcases h with hx | ⟨d', hd', hx, hne⟩
    · exact hx hd
    · exact hne (hx.eq_of_length_le (hdown d' hd').length_le)
  · exact hq (hq'.trans hd)

/-- From `dir` upwards the same is found. -/
theorem Found.transport (hx : Other t dir x) (hq : ¬ x ++ [fileName] <+: dir)
    (halike : FileTree.AlikeOff (x ++ [fileName]) t t') (h : Found t dir found) : Found t' dir found := by
  have hsame {d : List String} (hd : d <+: dir) (hdown : ∀ d', Nearest t dir d' → d' <+: d) :
      t.view (d ++ [fileName]) = t'.view (d ++ [fileName]) :=
    halike _ (hx.off_settings hq hd hdown)
  cases h with
  | @nearest d h =>
    have hdown {d' : List String} (hd : d <+: d') : ∀ d'', Nearest t dir d'' → d'' <+: d' :=
      fun d'' h' => h.unique h' ▸ hd
    refine .nearest ⟨h.above, ?_, fun d' hd' hholds => ?_⟩
    · rw [Holds, ← hsame h.above (hdown List.prefix_rfl)]
      exact h.holds
    · rcases List.prefix_or_prefix_of_prefix hd' h.above with hle | hle
      · exact hle
      · rw [Holds, ← hsame hd' (hdown hle)] at hholds
        exact h.deepest d' hd' hholds
  | nothing h =>
    refine .nothing fun d hd hholds => ?_
    rw [Holds, ← hsame hd fun d' h' => absurd h'.holds (h d' h'.above)] at hholds
    exact h d hd hholds

theorem Other.off_resolve (h : Other fs.root (home fs start) x)
    (hq : ¬ x ++ [fileName] <+: home fs start) : ¬ x ++ [fileName] <+: fs.resolve start := by
  rcases home_cases fs start with hhome | hhome
  · rwa [← hhome]
  · rcases List.eq_nil_or_concat (fs.resolve start) with hnil | ⟨parts, name, hconcat⟩
    · rw [hnil, List.dropLast_nil, ← hnil] at hhome
      rwa [← hhome]
    · rw [hconcat, List.concat_eq_append, List.dropLast_concat] at hhome
      rw [hconcat, List.concat_eq_append, ← hhome]
      exact h.off_concat hq name

/-- From places that are the same a search is refused for the same reason. -/
theorem Refused.transport {q : List String} {e : PathError} (hresolve : fs'.resolve start = fs.resolve start)
    (hhome : home fs' start = home fs start) (hq : ¬ q <+: fs.resolve start)
    (halike : FileTree.AlikeOff q fs.root fs'.root) (h : Refused fs start e) : Refused fs' start e := by
  cases h with
  | zeroChar hzero => exact .zeroChar hzero
  | overlong hzero h =>
    refine .overlong hzero ?_
    rw [hresolve, hhome]
    exact h.imp_right (.imp_left (halike.overlong hq))

/-- The settings files that are looked for can be looked up. -/
theorem fits_of_not_refused (hfs : fs.Named) {text : String} (h : ∀ e, ¬ Refused fs (.ofString text) e)
    (hd : d <+: home fs (.ofString text)) :
    Path.Plain (d ++ [fileName]) ∧ Path.Fits (d ++ [fileName]) := by
  have hzero : Path.hasZeroChar (Path.ofString text).toString = false := by
    rw [← Bool.not_eq_true]
    exact fun hzero => h _ (.zeroChar hzero)
  have hfits : Path.Fits (home fs (.ofString text) ++ [fileName]) :=
    by_contra fun hfits => h _ (.overlong hzero (.inr (.inr hfits)))
  have hplain := (hfs.plain_resolve hzero).of_sublist ((home_above fs _).sublist)
  exact ⟨(hplain.of_sublist hd.sublist).concat plain_fileName,
    hfits.of_sublist (List.Sublist.append_right hd.sublist _)⟩

/-- A change in another directory changes nothing. -/
theorem unchanged (hfs : fs.Named) (text : String) (fs' : FileSystem) (x : List String)
    (hdir : fs'.workingDir = fs.workingDir)
    (hx : Other fs.root (home fs (.ofString text)) x)
    (halike : FileTree.AlikeOff (x ++ [fileName]) fs.root fs'.root)
    (hway : ¬ (x ++ [fileName] <+: home fs (.ofString text) ∧ fs.root.view (x ++ [fileName]) = some none)) :
    find fs' (.ofString text) = find fs (.ofString text) ∧
      discover fs' (.ofString text) = discover fs (.ofString text) := by
  have hfs' : fs'.Named := ⟨by rw [hdir]; exact hfs.dot, by rw [hdir]; exact hfs.zero⟩
  have hresolve : fs'.resolve (.ofString text) = fs.resolve (.ofString text) := by
    rw [FileSystem.resolve, hdir, FileSystem.resolve]
  have hq := hx.off_dir hway
  have hstart := hx.off_resolve hq
  have hhome : home fs' (.ofString text) = home fs (.ofString text) := by
    rw [home, hresolve, ← halike _ hstart, home]
  have hrefused {e : PathError} (h : Refused fs (.ofString text) e) : Refused fs' (.ofString text) e :=
    h.transport hresolve hhome hstart halike
  have hrefused' {e : PathError} (h : Refused fs' (.ofString text) e) : Refused fs (.ofString text) e :=
    h.transport hresolve.symm hhome.symm (by rwa [hresolve]) halike.symm
  obtain ⟨e, he, hfind⟩ | ⟨hnone, found, hfound, hfind⟩ := find_cases hfs text
  · obtain ⟨e', he', hfind'⟩ | ⟨hnone, -⟩ := find_cases hfs' text
    · obtain rfl := (hrefused he).unique he'
      simp only [discover, hfind, hfind', and_self]
    · exact absurd (hrefused he) (hnone e)
  · obtain ⟨e', he', -⟩ | ⟨hnone', found', hfound', hfind'⟩ := find_cases hfs' text
    · exact absurd (hrefused' he') (hnone e')
    rw [hhome] at hfound'
    obtain rfl := (hfound.transport hx hq halike).unique hfound'
    refine ⟨hfind'.trans hfind.symm, ?_⟩
    simp only [discover, hfind, hfind']
    cases hfound with
    | nothing => rfl
    | @nearest d h =>
      obtain ⟨hplain, hfits⟩ := fits_of_not_refused hfs hnone h.above
      have hsame := halike (d ++ [fileName])
        (hx.off_settings hq h.above fun d' h' => h.unique h' ▸ List.prefix_rfl)
      simp only [load_eq hplain hfits, hsame]

/-! ## The settings for a place -/

/-- **The nearest settings file counts, alone.** A search is refused if there is a
zero character in the path of the start, or if the start or the settings file next
to it is too long to be looked up. Otherwise the settings file is found that is
furthest down among the directory to start from and those above it, or none if
there is none in them; the settings are those in the text of exactly this file, or
its failure, or the default ones. What settings files there are in all other
directories does not matter, as long as no directory on the way to the start is
taken for one. -/
theorem discover_nearest {fs : FileSystem} (hfs : fs.Named) (text : String) :
    let start := Path.ofString text
    let dir := home fs start
    (∀ e, find fs start = .error e ↔ Refused fs start e) ∧
    (∀ e, Refused fs start e → discover fs start = .error (.badPlace e)) ∧
    ((∀ e, ¬ Refused fs start e) →
      (∀ place, find fs start = .ok (some place) ↔ ∃ d, Nearest fs.root dir d ∧ place = d ++ [fileName]) ∧
      (find fs start = .ok none ↔ ∀ d, d <+: dir → ¬ Holds fs.root d) ∧
      (∀ d, Nearest fs.root dir d → discover fs start = load fs (d ++ [fileName]) ∧
        (∀ source, fs.root.view (d ++ [fileName]) = some (some source) →
          discover fs start = ofSource (Path.inWriting (d ++ [fileName])) source) ∧
        (fs.root.view (d ++ [fileName]) = some none → discover fs start = .error .unreadable)) ∧
      ((∀ d, d <+: dir → ¬ Holds fs.root d) → discover fs start = .ok .default)) ∧
    ∀ (fs' : FileSystem) (x : List String), fs'.workingDir = fs.workingDir → Other fs.root dir x →
      FileTree.AlikeOff (x ++ [fileName]) fs.root fs'.root →
      ¬ (x ++ [fileName] <+: dir ∧ fs.root.view (x ++ [fileName]) = some none) →
      find fs' start = find fs start ∧ discover fs' start = discover fs start := by
  intro start dir
  have hframe := unchanged hfs text
  obtain ⟨e, he, hfind⟩ | ⟨hnone, found, hfound, hfind⟩ := find_cases hfs text
  · have hfind : find fs start = .error e := hfind
    refine ⟨fun e' => ⟨fun h => ?_, fun h => ?_⟩, fun e' h => ?_, fun h => absurd he (h e), hframe⟩
    · rw [hfind] at h
      cases h
      exact he
    · rw [hfind, he.unique h]
    · rw [discover, hfind, he.unique h]
  have hfind : find fs start = .ok found := hfind
  have hfound : Found fs.root dir found := hfound
  refine ⟨fun e => iff_of_false (by simp [hfind]) (hnone e), fun e h => absurd h (hnone e), fun _ => ?_, hframe⟩
  refine ⟨fun place => ?_, ?_, fun d hd => ?_, fun h => ?_⟩
  · rw [hfind, Except.ok.injEq]
    constructor
    · rintro rfl
      cases hfound with
      | nearest hd => exact ⟨_, hd, rfl⟩
    · rintro ⟨d, hd, rfl⟩
      exact hfound.unique (.nearest hd)
  · rw [hfind, Except.ok.injEq]
    constructor
    · rintro rfl
      cases hfound with
      | nothing h => exact h
    · exact fun h => hfound.unique (.nothing h)
  · have hdiscover : discover fs start = load fs (d ++ [fileName]) := by
      rw [discover, hfind, hfound.unique (.nearest hd)]
    obtain ⟨hplain, hfits⟩ := fits_of_not_refused hfs hnone hd.above
    refine ⟨hdiscover, fun source hview => ?_, fun hview => ?_⟩
    · rw [hdiscover, load_eq hplain hfits, hview]
    · rw [hdiscover, load_eq hplain hfits, hview]
  · rw [discover, hfind, hfound.unique (.nothing h)]

/-- From a file two directories down, with a settings file in each directory but
the last: the one in the middle counts, whatever is written to the one at the top. -/
theorem discover_nearest_between :
    let fs : FileSystem := ⟨.dir [("donkey.toml", .file "[check]\nextension = 's'\n"),
      ("w", .dir [("donkey.toml", .file "[check]\nextension = 't'\n"), ("b", .dir [("c.dk", .file "1;")])])], ["w"]⟩
    let start := Path.ofString "b/c.dk"
    let broken := fs.write (.ofString "/donkey.toml") "[["
    fs.Named ∧ (∀ e, ¬ Refused fs start e) ∧ Nearest fs.root (home fs start) ["w"] ∧
    find fs start = .ok (some ["w", "donkey.toml"]) ∧
    discover fs start = ofSource "/w/donkey.toml" "[check]\nextension = 't'\n" ∧
    broken.root.view ["donkey.toml"] = some (some "[[") ∧
    find broken start = find fs start ∧ discover broken start = discover fs start := by
  intro fs start broken
  have hfs : fs.Named := ⟨by decide, by decide⟩
  have hfind : find fs start = .ok (some ["w", "donkey.toml"]) := by decide +kernel
  obtain ⟨hrefused, -, hfound, hframe⟩ := discover_nearest hfs "b/c.dk"
  have hnone : ∀ e, ¬ Refused fs start e := by
    intro e he
    rw [(hrefused e).mpr he] at hfind
    cases hfind
  obtain ⟨hiff, -, hload, -⟩ := hfound hnone
  obtain ⟨d, hd, hplace⟩ := (hiff _).mp hfind
  obtain rfl : ["w"] = d := (List.append_inj' hplace rfl).1
  have hother : Other fs.root (home fs start) [] := .inr ⟨["w"], hd, ⟨_, rfl⟩, by simp⟩
  have hwritable : fs.root.Writable ["donkey.toml"] := ⟨rfl, by decide⟩
  exact ⟨hfs, hnone, hd, hfind, (hload _ hd).2.1 _ rfl, by decide +kernel,
    hframe broken [] rfl hother (hwritable.alikeBut _).alikeOff (by decide +kernel)⟩

/-- From a place with a name too long there is no search, although there is a
settings file above it. And if the settings file of a directory further up is itself
the directory to start from, then without it nothing is found. -/
theorem find_longName :
    (let fs : FileSystem := ⟨.dir [("donkey.toml", .file "")], []⟩
      let start := Path.ofString (String.ofList (List.replicate 256 'a'))
      fs.root.view (fs.resolve start) = none ∧ Nearest fs.root (home fs start) [] ∧
        find fs start = .error .overlong ∧ discover fs start = .error (.badPlace .overlong)) ∧
    (let fs : FileSystem := ⟨.dir [("donkey.toml", .dir [("donkey.toml", .file "")])], []⟩
      let bare : FileSystem := ⟨.dir [], []⟩
      let start := Path.ofString "donkey.toml"
      Other fs.root (home fs start) [] ∧ FileTree.AlikeOff ["donkey.toml"] fs.root bare.root ∧
        find fs start = .ok (some ["donkey.toml", "donkey.toml"]) ∧ find bare start = .ok none) := by
  constructor
  · intro fs start
    obtain ⟨name, hname, hsize, hchars⟩ : ∃ name, String.ofList (List.replicate 256 'a') = name ∧
        name.utf8ByteSize = 256 ∧ ∀ c ∈ name.toList, c = 'a' :=
      ⟨_, rfl, by decide +kernel, fun c hc => List.eq_of_mem_replicate (String.toList_ofList ▸ hc)⟩
    have hne {text : String} (h : text.utf8ByteSize ≠ 256) : name ≠ text := fun he => h (he ▸ hsize)
    have hstart : start = ⟨false, [name]⟩ := by
      rw [← Path.ofString_of_notMem (fun hc => absurd (hchars _ hc) (by decide)) (hne (by decide))
        (hne (by decide)), ← hname]
    have hresolve : fs.resolve start = [name] := by
      rw [hstart, FileSystem.resolve, Path.collapse]
      have hup : name ≠ ".." := hne (by decide)
      simp [fs, hup]
    have hview : fs.root.view [name] = none := by
      rw [FileTree.view_dir, lookup_cons_eq, if_neg (hne (by decide))]
      rfl
    have hrefused : Refused fs start .overlong := by
      refine .overlong ?_ (.inr (.inl ⟨[], name, [], hresolve, rfl, hview, by rw [hsize]; decide⟩))
      rw [← Bool.not_eq_true, Path.hasZeroChar_toString, hstart]
      rintro ⟨part, hpart, hz⟩
      rw [List.mem_singleton.mp hpart, Path.hasZeroChar, List.contains_iff_mem] at hz
      exact absurd (hchars _ hz) (by decide)
    have habove : Nearest fs.root (home fs start) [] := by
      rw [home, hresolve, hview, ← List.nil_append [name]]
      refine (Nearest.of_holds (by decide)).concat fun hholds => ?_
      rw [List.nil_append, Holds, FileTree.view, FileTree.at?_append] at hholds
      rw [FileTree.view, Option.map_eq_none_iff] at hview
      simp [hview] at hholds
    have hfs : fs.Named := ⟨by decide, by decide⟩
    obtain ⟨e, he, hfind⟩ | ⟨hnone, -⟩ := find_cases hfs (String.ofList (List.replicate 256 'a'))
    · obtain rfl := hrefused.unique he
      exact ⟨hresolve ▸ hview, habove, hfind, by rw [discover, hfind]⟩
    · exact absurd hrefused (hnone _)
  · intro fs bare start
    have hhome : home fs start = ["donkey.toml"] := by decide +kernel
    have hhere : Nearest fs.root (home fs start) ["donkey.toml"] := by
      rw [hhome]
      exact .of_holds (by decide)
    refine ⟨.inr ⟨_, hhere, ⟨_, rfl⟩, by decide⟩, fun place hplace => ?_, by decide +kernel, by decide +kernel⟩
    cases place with
    | nil => rfl
    | cons name rest =>
      have hne : name ≠ "donkey.toml" := fun he => hplace ⟨rest, by rw [he]; rfl⟩
      rw [FileTree.view_dir, FileTree.view_dir, lookup_cons_eq, if_neg hne]

end Settings

end ExprLang
