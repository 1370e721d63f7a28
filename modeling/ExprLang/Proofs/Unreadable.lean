/-
Checking files goes on to the first path that leads to no file.

What is found under a directory may be a directory again, as a pattern says
nothing but how names end. It has no text that could be read, and so it is where
checking fails: what was found before it has been reported on, what comes behind
it is not, and nothing is summed up (`Command.checkEach_first`). Main statement:
`Command.check_until_first`.
-/
import ExprLang.Proofs.Checks

namespace ExprLang

/-! ## Written paths -/

namespace FileTree

variable {node t : FileTree} {trail : List FileTree} {part : String} {as bs cs : List String}

/-- Where a component leads, the rest may be replaced by one that leads to the same. -/
theorem follow_cons (h : node.follow trail (part :: bs) = .ok t)
    (hrest : ∀ {node : FileTree} {trail}, node.follow trail bs = .ok t → node.follow trail cs = .ok t) :
    node.follow trail (part :: cs) = .ok t := by
  cases node with
  | file text => simp [follow] at h
  | dir entries =>
    simp only [follow] at h ⊢
    by_cases hdot : part = "."
    · simp only [hdot, if_true] at h ⊢
      exact hrest h
    by_cases hup : part = ".."
    · simp only [hup, if_true] at h ⊢
      cases trail <;> exact hrest h
    simp only [hdot, hup, if_false] at h ⊢
    cases hl : entries.lookup part with
    | none => simp [hl] at h
    | some entry =>
      simp only [hl] at h ⊢
      exact hrest h

/-- Dots lead nowhere else. -/
theorem follow_filter_dot (h : node.follow trail bs = .ok t) :
    node.follow trail (bs.filter (· ≠ ".")) = .ok t := by
  induction bs generalizing node trail with
  | nil => exact h
  | cons part rest ih =>
    by_cases hdot : part = "."
    · rw [List.filter_cons_of_neg (by simpa using hdot)]
      cases node with
      | file text => simp [follow] at h
      | dir entries =>
        simp only [follow, hdot, if_true] at h
        exact ih h
    · rw [List.filter_cons_of_pos (by simpa using hdot)]
      exact follow_cons h ih

theorem follow_append_filter_dot (h : node.follow trail (as ++ bs) = .ok t) :
    node.follow trail (as ++ bs.filter (· ≠ ".")) = .ok t := by
  induction as generalizing node trail with
  | nil => exact follow_filter_dot h
  | cons part rest ih => exact follow_cons h ih

end FileTree

/-- What a path leads to as it is written it leads to without its dots. -/
theorem FileSystem.find?_of_locate {fs : FileSystem} {path : String} {t : FileTree}
    (h : fs.locate path = .ok t) (hfault : Path.fault? (Path.ofString path).toString = none) :
    fs.find? (.ofString path) = some t := by
  rw [locate, follow] at h
  rw [find?, find, follow, hfault]
  cases hpath : Path.fault? path with
  | some e => simp [hpath] at h
  | none =>
    simp only [hpath] at h
    have hfollow : fs.root.follow [] (if (Path.ofString path).absolute then (Path.ofString path).parts
        else fs.workingDir ++ (Path.ofString path).parts) = .ok t := by
      rw [Path.ofString]
      cases hrooted : Path.isRooted path with
      | true =>
        simp only [hrooted, if_true] at h ⊢
        exact FileTree.follow_filter_dot h
      | false =>
        simp only [hrooted, Bool.false_eq_true, if_false] at h ⊢
        exact FileTree.follow_append_filter_dot h
    simp only [hfollow, Except.toOption]

/-- A pattern of one component finds what is there, at any depth; it leads to
files only just if no directory has a name that matches. -/
theorem Component.exists_found {fs : FileSystem} {pattern : String} {p : Path} {t : FileTree}
    (h : Component pattern) (hp : fs.find? p = some t) (ht : t.Proper)
    (hfault : ∀ e ∈ t.nodes, Path.fault? (p.append e.1).toString = none) :
    ∃ paths, globUnder fs pattern p = .ok paths ∧
      (∀ q, q ∈ paths ↔ ∃ place name node, t.at? (place ++ [name]) = some node ∧ globMatch pattern name ∧
        q = p.append (place ++ [name]) ∧ fs.find? q = some node) ∧
      ((∀ q ∈ paths, ∃ text, fs.find? q = some (.file text)) ↔ ∀ place name node,
        t.at? (place ++ [name]) = some node → globMatch pattern name → node.isDir = false) := by
  obtain ⟨paths, hfound, hmem⟩ := h.globUnder_eq hp ht hfault
  have hat {place node} (hat : t.at? place = some node) : fs.find? (p.append place) = some node :=
    fs.find?_of_at? hp ht hfault hat
  refine ⟨paths, hfound, fun q => (hmem q).trans ⟨?_, ?_⟩, ?_, ?_⟩
  · rintro ⟨place, name, node, hnode, hmatch, rfl⟩
    exact ⟨place, name, node, hnode, hmatch, rfl, hat hnode⟩
  · rintro ⟨place, name, node, hnode, hmatch, rfl, -⟩
    exact ⟨place, name, node, hnode, hmatch, rfl⟩
  · intro hall place name node hnode hmatch
    obtain ⟨text, htext⟩ := hall _ ((hmem _).mpr ⟨place, name, node, hnode, hmatch, rfl⟩)
    rw [hat hnode, Option.some_inj] at htext
    rw [htext]
    rfl
  · intro hall q hq
    obtain ⟨place, name, node, hnode, hmatch, rfl⟩ := (hmem q).mp hq
    have hregular := hall place name node hnode hmatch
    cases node with
    | file text => exact ⟨text, hat hnode⟩
    | dir entries => cases hregular

namespace Command

variable {fs : FileSystem} {color : Bool} {extension : String} {files : List (Path × String)} {q : Path}
  {paths more : List Path}

/-! ## The first path without a file -/

theorem text_eq_none_iff : (fs.find? q).bind (·.text?) = none ↔ ∀ text, fs.find? q ≠ some (.file text) := by
  rcases fs.find? q with _ | _ | _ <;> simp [FileTree.text?]

/-- Paths lead to files, or one is the first that does not. -/
theorem exists_files_or_first (fs : FileSystem) (paths : List Path) :
    ∃ files : List (Path × String), (∀ e ∈ files, fs.find? e.1 = some (.file e.2)) ∧
      (paths = files.map (·.1) ∨
        ∃ q more, paths = files.map (·.1) ++ q :: more ∧ ∀ text, fs.find? q ≠ some (.file text)) := by
  induction paths with
  | nil => exact ⟨[], by simp, .inl rfl⟩
  | cons p paths ih =>
    by_cases hp : ∃ text, fs.find? p = some (.file text)
    · obtain ⟨text, hp⟩ := hp
      obtain ⟨files, hfiles, hpaths⟩ := ih
      refine ⟨(p, text) :: files, List.forall_mem_cons.mpr ⟨hp, hfiles⟩, ?_⟩
      rcases hpaths with rfl | ⟨q, more, rfl, hq⟩
      · exact .inl rfl
      · exact .inr ⟨q, more, rfl, hq⟩
    · exact ⟨[], by simp, .inr ⟨p, paths, rfl, not_exists.mp hp⟩⟩

/-- Up to the first path without a file each file is reported on alone. -/
theorem checkEach_first (src : Sources) (h : ∀ e ∈ files, fs.find? e.1 = some (.file e.2))
    (hq : ∀ text, fs.find? q ≠ some (.file text)) (more : List Path) :
    checkEach fs color src (files.map (·.1) ++ q :: more) =
      ⟨files.flatMap fun e => reportAlone color e.1.toString (asRead e.2),
        files.countP isMistaken, some (.unreadable q.toString)⟩ := by
  obtain ⟨src', heq⟩ := @checkEach_append fs color src files h (q :: more)
  have hstop : checkEach fs color src' (q :: more) = ⟨[], 0, some (.unreadable q.toString)⟩ := by
    simp only [checkEach, text_eq_none_iff.mpr hq]
  rw [heq, hstop, List.append_nil, Nat.add_zero]

/-- What checking files comes to as far as it goes. Up to the first path that
leads to no file each file is reported on as if it were alone; then checking
fails, without a word on what comes behind, and without the line that sums up. If
there is no such path, checking ends. -/
structure ChecksUntil (fs : FileSystem) (color : Bool) (extension : String) (paths : List Path) (o : Outcome) :
    Prop where
  none : paths = [] → o = .ended [.errLine ("warning: no " ++ extension ++ " files found")] 0
  all : ∀ files : List (Path × String), paths = files.map (·.1) → files ≠ [] →
    (∀ e ∈ files, fs.find? e.1 = some (.file e.2)) → SumsUp fs color files o
  first : ∀ (files : List (Path × String)) (q : Path) (more : List Path), paths = files.map (·.1) ++ q :: more →
    (∀ e ∈ files, fs.find? e.1 = some (.file e.2)) → (∀ text, fs.find? q ≠ some (.file text)) →
    o = .failed (files.flatMap fun e => reportAlone color e.1.toString (asRead e.2)) (.unreadable q.toString)

theorem checksUntil_checkUnder {settings : Settings} {p : Path} (hext : settings.extension.text = .ok extension)
    (hfound : globUnder fs ("*" ++ extension) p = .ok paths) :
    ChecksUntil fs color extension paths (checkUnder fs settings color p) := by
  have hcheck (hne : paths ≠ []) : checkUnder fs settings color p = checkFiles fs color paths := by
    cases paths with
    | nil => exact absurd rfl hne
    | cons q paths => simp only [checkUnder, hext, hfound]
  refine ⟨?_, ?_, ?_⟩
  · rintro rfl
    simp only [checkUnder, hext, hfound]
  · rintro files rfl hne h
    rw [hcheck (by simpa using hne)]
    exact sumsUp_checkFiles h
  · rintro files q more rfl h hq
    rw [hcheck (by simp)]
    simp only [checkFiles, checkEach_first _ h hq]

/-- Checking ends just if all paths lead to files. -/
theorem ChecksUntil.failure?_eq_none_iff {o : Outcome} (h : ChecksUntil fs color extension paths o) :
    o.failure? = .none ↔ ∀ q ∈ paths, ∃ text, fs.find? q = some (.file text) := by
  obtain ⟨files, hfiles, rfl | ⟨q, more, rfl, hq⟩⟩ := exists_files_or_first fs paths
  · refine iff_of_true ?_ fun q hq => ?_
    · cases files with
      | nil => rw [h.none rfl]; rfl
      | cons e files => rw [(h.all _ rfl (List.cons_ne_nil _ _) hfiles).ended]; rfl
    · obtain ⟨e, he, rfl⟩ := List.mem_map.mp hq
      exact ⟨_, hfiles e he⟩
  · refine iff_of_false ?_ fun hall => ?_
    · rw [h.first files q more rfl hfiles hq]
      exact Option.some_ne_none _
    · obtain ⟨text, htext⟩ := hall q (by simp)
      exact hq text htext

/-- **Checking goes on to the first directory that is found.** At the path of a
file this file is checked. Otherwise the paths that the pattern finds are checked
in order, each once, as far as they lead to files; the first one that does not
makes checking fail, and hides what is wrong with those behind it. Under a
directory a pattern of one component finds what is there at any depth and has a
name that matches, and so checking ends just if there is no directory among that. -/
theorem check_until_first {fs : FileSystem} {path extension : String} {t : FileTree} {settings : Settings}
    (hpath : fs.locate path = .ok t) (hsettings : Settings.discover fs (.ofString path) = .ok settings)
    (hext : settings.extension.text = .ok extension) (stdin : String) (color : Option Bool) :
    let p := Path.ofString path
    let pattern := "*" ++ extension
    let colored := color.getD settings.color.isTrue
    let o := perform fs stdin (.check path color)
    (∀ text, fs.find? p = some (.file text) → SumsUp fs colored [(p, text)] o) ∧
    ((∀ text, fs.find? p ≠ some (.file text)) →
      (∀ e, globUnder fs pattern p = .error e → o = .failed [] (globFailure pattern e)) ∧
      ∀ paths, globUnder fs pattern p = .ok paths →
        paths.Nodup ∧ paths.Pairwise (·.sortKey ≤ ·.sortKey) ∧ ChecksUntil fs colored extension paths o) ∧
    (t.isDir → t.Proper → (∀ e ∈ t.nodes, Path.fault? (p.append e.1).toString = none) → Component pattern →
      ∃ paths, globUnder fs pattern p = .ok paths ∧
        (∀ q, q ∈ paths ↔ ∃ place name node, t.at? (place ++ [name]) = some node ∧ globMatch pattern name ∧
          q = p.append (place ++ [name]) ∧ fs.find? q = some node) ∧
        (o.failure? = none ↔ ∀ place name node, t.at? (place ++ [name]) = some node → globMatch pattern name →
          node.isDir = false)) := by
  intro p pattern colored o
  have ho : o = check fs settings colored p := by
    simp only [o, perform, hpath, withSettings, hsettings, p, colored]
  have hunder (hdir : ∀ text, fs.find? p ≠ some (.file text)) : o = checkUnder fs settings colored p := by
    rw [ho, check]
    split
    next text htext => exact absurd htext (hdir text)
    next => rfl
  refine ⟨fun text htext => ?_, fun hdir => ⟨fun e he => ?_, fun paths hfound => ?_⟩, ?_⟩
  · rw [ho, check, htext]
    exact @sumsUp_checkFiles fs colored [(p, text)] (by simpa using htext)
  · simp only [hunder hdir, checkUnder, hext]
    rw [he]
  · obtain ⟨honce, hordered⟩ := pairwise_globUnder hfound
    exact ⟨honce, hordered, hunder hdir ▸ checksUntil_checkUnder hext hfound⟩
  intro hdir hproper hfault hcomponent
  have hroot : Path.fault? p.toString = none := by
    have h := hfault ([], t) (hproper.mem_nodes.mpr (FileTree.at?_nil t))
    rwa [Path.append, List.append_nil] at h
  have hfind : fs.find? p = some t := FileSystem.find?_of_locate hpath hroot
  have hnofile : ∀ text, fs.find? p ≠ some (.file text) := by
    intro text htext
    rw [hfind, Option.some_inj] at htext
    rw [htext] at hdir
    cases hdir
  obtain ⟨paths, hfound, hmem, hregular⟩ := hcomponent.exists_found hfind hproper hfault
  have hchecks : ChecksUntil fs colored extension paths o :=
    hunder hnofile ▸ checksUntil_checkUnder hext hfound
  exact ⟨paths, hfound, hmem, hchecks.failure?_eq_none_iff.trans hregular⟩

/-- A file with a mistake, a directory, and behind it files with mistakes. -/
theorem check_until_first_second :
    let fs : FileSystem :=
      ⟨.dir [("a.dk", .file ")"), ("b.dk", .dir [("c.dk", .file "(")]), ("d.dk", .file ")")], []⟩
    let o := perform fs "" (.check "." (some false))
    o = .failed (reportAlone false "a.dk" ")") (.unreadable "b.dk") ∧ o.failure? ≠ none ∧
    Transcript.stderr false false o.pieces =
      "error[E201]: no prefix parse function for RPAREN found\n  --> a.dk:1:1\n     |\n" ++
        "   1 | )\n     | ^ expression cannot start here\n" := by
  intro fs o
  have hpath : fs.locate "." = .ok fs.root := by rfl
  have hsettings : Settings.discover fs (.ofString ".") = .ok Settings.default := by
    have hnone : Settings.find fs (.ofString ".") = .ok none := by decide +kernel
    rw [Settings.discover, hnone]
  have hproper : fs.root.Proper := by
    refine .dir (by decide) (by decide) ?_
    simp only [List.forall_mem_cons]
    refine ⟨.file _, .dir (by decide) (by decide) ?_, .file _, by simp⟩
    simp only [List.forall_mem_cons]
    exact ⟨.file _, by simp⟩
  have hext : Settings.default.extension.text = .ok ".dk" := rfl
  obtain ⟨-, hunder, hends⟩ := check_until_first hpath hsettings hext "" (some false)
  obtain ⟨-, -, hchecks⟩ := (hunder fun text h => by cases h).2
    [⟨false, ["a.dk"]⟩, ⟨false, ["b.dk"]⟩, ⟨false, ["b.dk", "c.dk"]⟩, ⟨false, ["d.dk"]⟩] (by decide +kernel)
  have ho : o = .failed (reportAlone false "a.dk" ")") (.unreadable "b.dk") :=
    hchecks.first [(⟨false, ["a.dk"]⟩, ")")] ⟨false, ["b.dk"]⟩ _ rfl
      (by simp only [List.forall_mem_singleton]; rfl) (fun text h => by cases h)
  refine ⟨ho, ?_, ?_⟩
  · obtain ⟨paths, -, -, hiff⟩ := hends rfl hproper (by decide +kernel) ⟨by decide, by decide, by decide⟩
    intro hnone
    exact absurd (hiff.mp hnone [] "b.dk" _ rfl (by decide +kernel)) (by decide)
  · rw [ho]
    decide +kernel

/-- Of a directory with the extension and a file with a mistake behind it
nothing is shown but the failure. -/
theorem check_directoryNamed :
    let fs : FileSystem := ⟨.dir [("a.dk", .dir []), ("b.dk", .file ")")], []⟩
    (run fs "" ["check", "."]).outcome = .failed [] (.unreadable "a.dk") ∧
    fs.root.at? ["b.dk"] = some (.file ")") ∧ globMatch "*.dk" "b.dk" = true ∧
    (parse "b.dk" ")" nestingLimit).diagnostics ≠ [] := by
  exact ⟨by rfl, by rfl, by decide +kernel, by decide +kernel⟩

end Command

end ExprLang
