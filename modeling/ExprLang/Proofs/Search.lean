/-
The files that are found under a directory by a pattern of names.

Whatever the pattern, paths come in order and each of them once
(`pairwise_globUnder`). A pattern of a single component finds what stands
anywhere under the directory with a name that matches it
(`globUnder_component`), as far as the tree is one that disks have
(`FileTree.Proper`) and paths are not too long to be followed.
-/
import ExprLang.Files.Glob
import ExprLang.Proofs.Files
import Mathlib.Data.List.Lex
import Mathlib.Data.String.Basic

namespace ExprLang

/-! ## Order of paths -/

namespace Path

/-- The components that paths are sorted by. -/
def sortKey (p : Path) : List String := if p.absolute then "/" :: p.parts else p.parts

/-- The first difference decides. -/
theorem cons_le_cons_iff_of_ne {α : Type} [LinearOrder α] {a b : α} (as bs : List α) (h : a ≠ b) :
    a :: as ≤ b :: bs ↔ a ≤ b := by
  rw [← not_lt, List.cons_lt_cons_iff, not_or, not_lt]
  exact and_iff_left fun he => h he.1.symm

theorem cons_le_cons_iff_self {α : Type} [LinearOrder α] (a : α) (as bs : List α) :
    a :: as ≤ a :: bs ↔ as ≤ bs := by
  rw [← not_lt, List.cons_lt_cons_self, not_lt]

theorem nil_le {α : Type} [LinearOrder α] (as : List α) : [] ≤ as := by
  rw [← not_lt]
  exact List.not_lt_nil as

theorem textBefore_iff (as bs : List Char) : textBefore as bs = true ↔ as ≤ bs := by
  induction as generalizing bs with
  | nil => simp [textBefore, nil_le]
  | cons a as ih =>
    cases bs with
    | nil => simp [textBefore]
    | cons b bs =>
      rw [textBefore]
      split
      next h => rw [h, ih, cons_le_cons_iff_self]
      next h =>
        rw [cons_le_cons_iff_of_ne as bs h, decide_eq_true_iff]
        exact (lt_iff_le_and_ne.trans (and_iff_left h) : a < b ↔ a ≤ b)

theorem partsBefore_iff (as bs : List String) : partsBefore as bs = true ↔ as ≤ bs := by
  induction as generalizing bs with
  | nil => simp [partsBefore, nil_le]
  | cons a as ih =>
    cases bs with
    | nil => simp [partsBefore]
    | cons b bs =>
      rw [partsBefore]
      split
      next h => rw [h, ih, cons_le_cons_iff_self]
      next h => rw [cons_le_cons_iff_of_ne as bs h, textBefore_iff, String.le_iff_toList_le]

theorem before_iff (p q : Path) : p.before q = true ↔ p.sortKey ≤ q.sortKey := partsBefore_iff _ _

theorem insert_perm (p : Path) (ps : List Path) : (insert p ps).Perm (p :: ps) := by
  induction ps with
  | nil => exact .refl _
  | cons q ps ih =>
    rw [insert]
    split
    · exact .refl _
    · exact (ih.cons q).trans (.swap p q ps)

theorem sort_perm (ps : List Path) : (sort ps).Perm ps := by
  induction ps with
  | nil => exact .refl _
  | cons p ps ih => exact (insert_perm p _).trans (ih.cons p)

theorem pairwise_insert (p : Path) {ps : List Path} (h : ps.Pairwise (·.sortKey ≤ ·.sortKey)) :
    (insert p ps).Pairwise (·.sortKey ≤ ·.sortKey) := by
  induction ps with
  | nil => simp [insert]
  | cons q ps ih =>
    obtain ⟨hq, hps⟩ := List.pairwise_cons.mp h
    rw [insert]
    split
    next hb =>
      rw [before_iff] at hb
      exact List.pairwise_cons.mpr ⟨List.forall_mem_cons.mpr ⟨hb, fun r hr => le_trans hb (hq r hr)⟩, h⟩
    next hb =>
      rw [before_iff, not_le] at hb
      refine List.pairwise_cons.mpr ⟨fun r hr => ?_, ih hps⟩
      obtain rfl | hr := List.mem_cons.mp ((insert_perm p ps).mem_iff.mp hr)
      · exact hb.le
      · exact hq r hr

theorem pairwise_sort (ps : List Path) : (sort ps).Pairwise (·.sortKey ≤ ·.sortKey) := by
  induction ps with
  | nil => exact .nil
  | cons p ps ih => exact pairwise_insert p ih

end Path

/-! ## Nodes of a tree -/

namespace FileTree

variable {t node : FileTree} {name : String} {parts : List String}
  {entries : List (String × FileTree)}

/-- In each directory the names are distinct, and none of them leads elsewhere. -/
structure Proper (t : FileTree) : Prop where
  distinct : ∀ dir entries, t.at? dir = some (.dir entries) → (entries.map (·.1)).Nodup
  named : ∀ dir entries, t.at? dir = some (.dir entries) →
    ∀ e ∈ entries, e.1 ≠ "." ∧ e.1 ≠ ".."

theorem Proper.lookup_eq_some_iff (h : (dir entries).Proper) :
    entries.lookup name = some node ↔ (name, node) ∈ entries :=
  lookup_eq_some_iff_mem (h.distinct [] entries rfl)

theorem Proper.entry (h : (dir entries).Proper) (he : (name, node) ∈ entries) : node.Proper := by
  have hat (place : List String) : (dir entries).at? (name :: place) = node.at? place := by
    rw [at?_dir, h.lookup_eq_some_iff.mpr he, Option.bind_some]
  exact ⟨fun place es hp => h.distinct (name :: place) es ((hat place).trans hp),
    fun place es hp => h.named (name :: place) es ((hat place).trans hp)⟩

theorem Proper.file (text : String) : (file text).Proper where
  distinct place entries hp := by cases place <;> simp at hp
  named place entries hp := by cases place <;> simp at hp

theorem Proper.dir (hdistinct : (entries.map (·.1)).Nodup)
    (hnamed : ∀ e ∈ entries, e.1 ≠ "." ∧ e.1 ≠ "..") (h : ∀ e ∈ entries, e.2.Proper) :
    (dir entries).Proper := by
  have hentry {name place es} (hat : (FileTree.dir entries).at? (name :: place) = some (.dir es)) :
      ∃ e ∈ entries, e.2.at? place = some (.dir es) := by
    rw [at?_dir, Option.bind_eq_some_iff] at hat
    obtain ⟨t, hl, hat⟩ := hat
    exact ⟨(name, t), (lookup_eq_some_iff_mem hdistinct).mp hl, hat⟩
  constructor
  · intro place es hat
    cases place with
    | nil => cases hat; exact hdistinct
    | cons name place =>
      obtain ⟨e, he, hat⟩ := hentry hat
      exact (h e he).distinct place es hat
  · intro place es hat
    cases place with
    | nil => cases hat; exact hnamed
    | cons name place =>
      obtain ⟨e, he, hat⟩ := hentry hat
      exact (h e he).named place es hat

theorem mem_entryNodes : (parts, node) ∈ entryNodes entries ↔
    ∃ name t rest, (name, t) ∈ entries ∧ (rest, node) ∈ t.nodes ∧ parts = name :: rest := by
  induction entries with
  | nil => simp [entryNodes]
  | cons e entries ih =>
    obtain ⟨n, t⟩ := e
    rw [entryNodes, List.mem_append, ih]
    grind

/-- The nodes are those at the places of the tree. -/
theorem Proper.mem_nodes (h : t.Proper) : (parts, node) ∈ t.nodes ↔ t.at? parts = some node := by
  induction parts generalizing t with
  | nil =>
    cases t with
    | file text => simp [nodes, eq_comm]
    | dir entries => simp [nodes, mem_entryNodes, eq_comm]
  | cons name rest ih =>
    cases t with
    | file text => simp [nodes]
    | dir entries =>
      rw [at?_dir, Option.bind_eq_some_iff]
      simp only [nodes, List.mem_cons, mem_entryNodes]
      constructor
      · rintro (he | ⟨n, t, more, he, hm, heq⟩)
        · simp at he
        · cases heq
          exact ⟨t, h.lookup_eq_some_iff.mpr he, (ih (h.entry he)).mp hm⟩
      · rintro ⟨t, hl, hat⟩
        have he := h.lookup_eq_some_iff.mp hl
        exact .inr ⟨name, t, rest, he, (ih (h.entry he)).mpr hat, rfl⟩

/-- What is under a node is found by its place, from wherever the node was reached. -/
theorem Proper.follow_eq (h : t.Proper) (hat : t.at? parts = some node) (trail : List FileTree) :
    t.follow trail parts = .ok node := by
  induction parts generalizing t trail with
  | nil =>
    rw [at?_nil, Option.some_inj] at hat
    rw [follow.eq_def, hat]
  | cons name rest ih =>
    cases t with
    | file text => simp at hat
    | dir entries =>
      rw [at?_dir, Option.bind_eq_some_iff] at hat
      obtain ⟨t, hl, hat⟩ := hat
      have he := h.lookup_eq_some_iff.mp hl
      obtain ⟨hdot, hup⟩ := h.named [] entries rfl _ he
      simp only [follow, hdot, hup, if_false, hl]
      exact ih (h.entry he) hat _

theorem follow_append {trail : List FileTree} {as : List String}
    (h : node.follow trail as = .ok t) :
    ∃ trail', ∀ bs, node.follow trail (as ++ bs) = t.follow trail' bs := by
  induction as generalizing node trail with
  | nil =>
    rw [follow.eq_def] at h
    cases h
    exact ⟨trail, fun bs => rfl⟩
  | cons part rest ih =>
    cases node with
    | file text => simp [follow] at h
    | dir entries =>
      simp only [List.cons_append, follow] at h ⊢
      by_cases hdot : part = "."
      · simp only [hdot, if_true] at h ⊢
        exact ih h
      by_cases hup : part = ".."
      · simp only [hup, if_true] at h ⊢
        cases trail <;> exact ih h
      simp only [hdot, hup, if_false] at h ⊢
      cases hl : entries.lookup part with
      | none => simp [hl] at h
      | some entry =>
        simp only [hl] at h ⊢
        exact ih h

end FileTree

/-- From a node that a path leads to, the path leads on to the places under it. -/
theorem FileSystem.find?_append {fs : FileSystem} {p : Path} {t node : FileTree} {parts : List String}
    (hp : fs.find? p = some t) (ht : t.Proper) (hat : t.at? parts = some node)
    (hfault : Path.fault? (p.append parts).toString = none) :
    fs.find? (p.append parts) = some node := by
  have hfollow {start : List String} (h : fs.root.follow [] start = .ok t) :
      fs.root.follow [] (start ++ parts) = .ok node := by
    obtain ⟨trail, htrail⟩ := FileTree.follow_append h
    rw [htrail, ht.follow_eq hat]
  have hstart : (if (p.append parts).absolute then (p.append parts).parts
      else fs.workingDir ++ (p.append parts).parts) =
        (if p.absolute then p.parts else fs.workingDir ++ p.parts) ++ parts := by
    obtain ⟨absolute, ps⟩ := p
    cases absolute <;> simp [Path.append]
  rw [find?, find, follow] at hp
  rw [find?, find, follow, hfault]
  cases hp' : Path.fault? p.toString with
  | some e => simp [hp', Except.toOption] at hp
  | none =>
    simp only [hp'] at hp
    cases hf : fs.root.follow [] (if p.absolute then p.parts else fs.workingDir ++ p.parts) with
    | error e => simp [hf, Except.toOption] at hp
    | ok t' =>
      rw [hf] at hp
      cases hp
      simp only [hstart, hfollow hf, Except.toOption]

/-! ## What a pattern finds -/

variable {fs : FileSystem} {pattern : String} {p : Path}

/-- Whatever is found comes in order, and once. -/
theorem pairwise_globUnder {files : List Path} (h : globUnder fs pattern p = .ok files) :
    files.Nodup ∧ files.Pairwise (·.sortKey ≤ ·.sortKey) := by
  unfold globUnder at h
  cases hparts : globParts? pattern with
  | none => simp [hparts] at h
  | some parts =>
    simp only [hparts] at h
    cases hfound : globSelect fs (.anyDepth :: parts) p with
    | error e => simp [hfound, Except.map] at h
    | ok found =>
      have hnodup : found.Nodup := by
        rw [globSelect] at hfound
        split at hfound
        · cases hfound
          exact .nil
        · simp only [bind, Except.bind] at hfound
          split at hfound
          · cases hfound
          · cases hfound
            exact nodup_eraseDups _
      simp only [hfound, Except.map, Except.ok.injEq] at h
      rw [← h]
      exact ⟨(Path.sort_perm found).nodup_iff.mpr hnodup, Path.pairwise_sort found⟩

/-- The paths of the entries of a directory whose names match. -/
def matchesIn (fs : FileSystem) (pattern : String) (p : Path) : List Path :=
  match fs.find? p with
  | some (.dir entries) => (entries.filter (globMatch pattern ·.1)).map (p.append [·.1])
  | _ => []

theorem mem_matchesIn {q : Path} : q ∈ matchesIn fs pattern p ↔
    ∃ entries, fs.find? p = some (.dir entries) ∧
      ∃ e ∈ entries, globMatch pattern e.1 ∧ q = p.append [e.1] := by
  rcases h : fs.find? p with _ | _ | entries
  · simp only [matchesIn, h, List.not_mem_nil, reduceCtorEq, false_and, exists_false]
  · simp only [matchesIn, h, List.not_mem_nil, Option.some_inj, reduceCtorEq, false_and, exists_false]
  · simp only [matchesIn, h, Option.some_inj, FileTree.dir.injEq, List.mem_map, List.mem_filter]
    grind

theorem globSelect_wildcard (fs : FileSystem) (pattern : String) (p : Path) :
    globSelect fs [.wildcard pattern] p = .ok (matchesIn fs pattern p) := by
  rcases h : fs.find? p with _ | _ | entries
  · simp only [globSelect, matchesIn, h]
  · simp only [globSelect, matchesIn, h]
  · simp only [globSelect, matchesIn, h, List.isEmpty_nil, Bool.true_or, Bool.and_true]
    rw [mapM_eq_map (g := fun e : String × FileTree => [p.append [e.1]]) fun e _ => rfl]
    exact congrArg Except.ok (List.flatMap_def.symm.trans List.map_eq_flatMap.symm)

theorem pieces_of_notMem {cs : List Char} (h : '/' ∉ cs) : Path.pieces cs = [cs] := by
  induction cs with
  | nil => rfl
  | cons c cs ih =>
    rw [List.mem_cons, not_or] at h
    rw [Path.pieces, ih h.2]
    exact fun he => h.1 he.symm

/-- A pattern of one component. -/
structure Component (pattern : String) : Prop where
  star : '*' ∈ pattern.toList
  single : hasTwoStars pattern.toList = false
  slash : '/' ∉ pattern.toList

theorem Component.globParts?_eq (h : Component pattern) : globParts? pattern = some [.wildcard pattern] := by
  have hne (text : String) (ht : '*' ∉ text.toList) : pattern ≠ text := fun he => ht (he ▸ h.star)
  have hdouble : pattern ≠ "**" := by
    intro he
    exact absurd (he ▸ h.single) (by decide)
  have hwild : (pattern.toList.any fun c => c = '*' || c = '?' || c = '[') = true :=
    List.any_eq_true.mpr ⟨'*', h.star, rfl⟩
  have hpart : GlobPart.ofString? pattern = some (.wildcard pattern) := by
    simp only [GlobPart.ofString?, hdouble, h.single, hwild, if_true, if_false, Bool.false_eq_true]
  have hempty := hne "" (by decide)
  have hdot := hne "." (by decide)
  simp [globParts?, pieces_of_notMem h.slash, hempty, hdot, hpart]

/-- A pattern of one component is looked for in all directories. -/
theorem globSelect_everywhere (pattern : String) {t : FileTree} (hp : fs.find? p = some t) :
    globSelect fs [.anyDepth, .wildcard pattern] p = .ok
      ((t.nodes.filter (·.2.isDir)).flatMap (matchesIn fs pattern <| p.append ·.1)).eraseDups := by
  have hmap (e : List String × FileTree) := globSelect_wildcard fs pattern (p.append e.1)
  rw [globSelect, hp]
  simp only
  rw [mapM_eq_map fun e _ => hmap e, List.flatMap_def]
  rfl

/-- Where no path has a fault, each node is found at the path of its place. -/
theorem FileSystem.find?_of_at? {t node : FileTree} {place : List String} (hp : fs.find? p = some t)
    (ht : t.Proper) (hfault : ∀ e ∈ t.nodes, Path.fault? (p.append e.1).toString = none)
    (hat : t.at? place = some node) : fs.find? (p.append place) = some node :=
  fs.find?_append hp ht hat (hfault (place, node) (ht.mem_nodes.mpr hat))

/-- A pattern of one component finds the entries, in whatever directory they are,
whose names match it. -/
theorem Component.globUnder_eq (h : Component pattern) {t : FileTree} (hp : fs.find? p = some t)
    (ht : t.Proper)
    (hfault : ∀ e ∈ t.nodes, Path.fault? (p.append e.1).toString = none) :
    ∃ files, globUnder fs pattern p = .ok files ∧ ∀ q, q ∈ files ↔
      ∃ dir name node, t.at? (dir ++ [name]) = some node ∧ globMatch pattern name ∧
        q = p.append (dir ++ [name]) := by
  have hselect := globSelect_everywhere pattern hp
  refine ⟨Path.sort ((t.nodes.filter (·.2.isDir)).flatMap
    (matchesIn fs pattern <| p.append ·.1)).eraseDups, ?_, fun q => ?_⟩
  · rw [globUnder, h.globParts?_eq]
    exact congrArg (Except.map Path.sort) hselect
  rw [(Path.sort_perm _).mem_iff, List.mem_eraseDups, List.mem_flatMap]
  simp only [List.mem_filter, mem_matchesIn, Prod.exists, ht.mem_nodes]
  constructor
  · rintro ⟨dir, node, ⟨hat, hdir⟩, entries, hfind, name, entry, he, hmatch, rfl⟩
    rw [fs.find?_of_at? hp ht hfault hat, Option.some_inj] at hfind
    subst hfind
    have hl := (lookup_eq_some_iff_mem (ht.distinct _ _ hat)).mpr he
    refine ⟨dir, name, entry, ?_, hmatch, by simp [Path.append]⟩
    rw [FileTree.at?_append, hat, Option.bind_some, FileTree.at?_dir, hl, Option.bind_some, FileTree.at?_nil]
  · rintro ⟨dir, name, node, hat, hmatch, rfl⟩
    rw [FileTree.at?_append, Option.bind_eq_some_iff] at hat
    obtain ⟨parent, hdir, hat⟩ := hat
    cases parent with
    | file text => simp at hat
    | dir entries =>
      rw [FileTree.at?_dir, Option.bind_eq_some_iff] at hat
      obtain ⟨entry, hl, -⟩ := hat
      have he := (lookup_eq_some_iff_mem (ht.distinct _ _ hdir)).mp hl
      exact ⟨dir, _, ⟨hdir, rfl⟩, entries, fs.find?_of_at? hp ht hfault hdir, name, entry, he, hmatch,
        by simp [Path.append]⟩

/-- Where all entries found are files, they come with their texts. -/
theorem Component.exists_entries (h : Component pattern) {t : FileTree} (hp : fs.find? p = some t)
    (ht : t.Proper) (hfault : ∀ e ∈ t.nodes, Path.fault? (p.append e.1).toString = none)
    (hregular : ∀ place name node, t.at? (place ++ [name]) = some node → globMatch pattern name →
      ∃ text, node = .file text) :
    ∃ entries : List (Path × String), globUnder fs pattern p = .ok (entries.map (·.1)) ∧
      (∀ e ∈ entries, fs.find? e.1 = some (.file e.2)) ∧
      ∀ q text, (q, text) ∈ entries ↔ ∃ place name, t.at? (place ++ [name]) = some (.file text) ∧
        globMatch pattern name ∧ q = p.append (place ++ [name]) := by
  obtain ⟨files, hfound, hmem⟩ := h.globUnder_eq hp ht hfault
  have hfile {q} (hq : q ∈ files) : ∃ text, fs.find? q = some (.file text) := by
    obtain ⟨place, name, node, hat, hmatch, rfl⟩ := (hmem q).mp hq
    obtain ⟨text, rfl⟩ := hregular place name node hat hmatch
    exact ⟨text, fs.find?_of_at? hp ht hfault hat⟩
  obtain ⟨entries, rfl, hread⟩ : ∃ entries : List (Path × String), entries.map (·.1) = files ∧
      ∀ e ∈ entries, fs.find? e.1 = some (.file e.2) := by
    clear hfound hmem
    induction files with
    | nil => exact ⟨[], rfl, by simp⟩
    | cons q files ih =>
      obtain ⟨text, htext⟩ := hfile List.mem_cons_self
      obtain ⟨entries, rfl, hread⟩ := ih fun hq => hfile (List.mem_cons_of_mem q hq)
      exact ⟨(q, text) :: entries, rfl, List.forall_mem_cons.mpr ⟨htext, hread⟩⟩
  refine ⟨entries, hfound, hread, fun q text => ⟨fun he => ?_, ?_⟩⟩
  · obtain ⟨place, name, node, hat, hmatch, rfl⟩ := (hmem q).mp (List.mem_map_of_mem he)
    refine ⟨place, name, ?_, hmatch, rfl⟩
    rw [hat, ← fs.find?_of_at? hp ht hfault hat, hread _ he]
  · rintro ⟨place, name, hat, hmatch, rfl⟩
    obtain ⟨⟨q, text'⟩, he, rfl⟩ := List.mem_map.mp ((hmem _).mpr ⟨place, name, _, hat, hmatch, rfl⟩)
    have hsame := (hread _ he).symm.trans (fs.find?_of_at? hp ht hfault hat)
    simp only [Option.some_inj, FileTree.file.injEq] at hsame
    exact hsame ▸ he

end ExprLang
