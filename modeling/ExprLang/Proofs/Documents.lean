/-
What an editor has open is told by its messages, and every document by its own.

A document is the last text that it got since it was closed, whatever came
before and whatever else is open (`Workspace.find?_after`), and the open ones
stand in the order in which they came (`Workspace.ordered_after`). Main
statement: `Workspace.history_independent`.
-/
import ExprLang.Editor.Workspace
import ExprLang.Proofs.Entries
import Mathlib.Data.List.Induction

namespace ExprLang.Editor

/-! ## What messages say -/

namespace Message

/-- The document that a message opens, changes or closes, and the text that it then has. -/
def edit? : Message → Option (String × Option String)
  | .open uri text => some (uri, some text)
  | .change uri texts => some (uri, some (texts.getLast?.getD ""))
  | .close uri => some (uri, none)
  | .hover _ _ _ | .definition _ _ _ | .completion _ _ _ | .symbols _ => none

/-- Whether a message asks for something. -/
def isRequest (m : Message) : Bool := m.edit?.isNone

/-- The document that a message is about. -/
def uri : Message → String
  | .open uri _ | .change uri _ | .close uri | .symbols uri => uri
  | .hover uri _ _ | .definition uri _ _ | .completion uri _ _ => uri

end Message

variable {m : Message} {ms : List Message} {uri : String} {i : Nat}

/-- What messages do to a document, one after the other: `none` where it is closed. -/
def edits (uri : String) (ms : List Message) : List (Option String) :=
  ((ms.filterMap Message.edit?).filter (·.1 = uri)).map (·.2)

/-- The text that a document has after messages, unless the last that opened,
changed or closed it closed it. -/
def latestText? (uri : String) (ms : List Message) : Option String :=
  (edits uri ms).getLast?.join

/-- What the `i`-th of the messages edits. -/
def editAt? (ms : List Message) (i : Nat) : Option (String × Option String) :=
  ms[i]?.bind Message.edit?

/-- The `i`-th of the messages opens or changes a document. -/
def Gives (ms : List Message) (uri : String) (i : Nat) : Prop :=
  ∃ text, editAt? ms i = some (uri, some text)

/-- The `i`-th of the messages closes a document. -/
def Closes (ms : List Message) (uri : String) (i : Nat) : Prop :=
  editAt? ms i = some (uri, none)

/-- The `i`-th of the messages is the first to open or change a document since
it was last closed. -/
structure OpenedAt (ms : List Message) (uri : String) (i : Nat) : Prop where
  gives : Gives ms uri i
  stays : ∀ j, Closes ms uri j → j < i
  first : ∀ j, Gives ms uri j → j < i → ∃ k, Closes ms uri k ∧ j < k

theorem latestText?_concat : latestText? uri (ms ++ [m]) =
    match m.edit? with
    | none => latestText? uri ms
    | some (u, text?) => if u = uri then text? else latestText? uri ms := by
  unfold latestText? edits
  rcases h : m.edit? with _ | ⟨u, text?⟩
  · simp [h]
  · by_cases hu : u = uri <;> simp [h, hu]

theorem editAt?_concat :
    editAt? (ms ++ [m]) i = if i = ms.length then m.edit? else editAt? ms i := by
  unfold editAt?
  rcases Nat.lt_trichotomy i ms.length with h | rfl | h
  · rw [List.getElem?_append_left h, if_neg (Nat.ne_of_lt h)]
  · simp
  · rw [if_neg (Nat.ne_of_gt h), List.getElem?_eq_none (by simpa [Nat.succ_le_iff] using h),
      List.getElem?_eq_none (Nat.le_of_lt h)]

theorem lt_length_of_editAt? {e : String × Option String} (h : editAt? ms i = some e) :
    i < ms.length := by
  obtain ⟨_, hm, -⟩ := Option.bind_eq_some_iff.mp h
  exact (List.getElem?_eq_some_iff.mp hm).1

theorem editAt?_concat_of_lt (h : i < ms.length) : editAt? (ms ++ [m]) i = editAt? ms i := by
  rw [editAt?_concat, if_neg (Nat.ne_of_lt h)]

theorem Gives.lt_length (h : Gives ms uri i) : i < ms.length :=
  let ⟨_, h⟩ := h
  lt_length_of_editAt? h

theorem Gives.concat (h : Gives ms uri i) : Gives (ms ++ [m]) uri i := by
  obtain ⟨text, ht⟩ := h
  exact ⟨text, by rw [editAt?_concat_of_lt (lt_length_of_editAt? ht), ht]⟩

theorem Closes.concat (h : Closes ms uri i) : Closes (ms ++ [m]) uri i := by
  rw [Closes, editAt?_concat_of_lt (lt_length_of_editAt? h)]
  exact h

/-- A text that a document got was given by the last message or by one before it. -/
theorem Gives.of_concat (h : Gives (ms ++ [m]) uri i) :
    Gives ms uri i ∨ i = ms.length ∧ ∃ text, m.edit? = some (uri, some text) := by
  obtain ⟨text, ht⟩ := h
  rw [editAt?_concat] at ht
  split at ht
  next hi => exact .inr ⟨hi, text, ht⟩
  next => exact .inl ⟨text, ht⟩

theorem Closes.of_concat (h : Closes (ms ++ [m]) uri i) :
    Closes ms uri i ∨ i = ms.length ∧ m.edit? = some (uri, none) := by
  rw [Closes, editAt?_concat] at h
  split at h
  next hi => exact .inr ⟨hi, h⟩
  next => exact .inl h

/-- A document that is not closed stays where it was opened. -/
theorem OpenedAt.concat (h : OpenedAt ms uri i) (hm : m.edit? ≠ some (uri, none)) :
    OpenedAt (ms ++ [m]) uri i where
  gives := h.gives.concat
  stays j hj := by
    rcases hj.of_concat with hj | ⟨-, hj⟩
    · exact h.stays j hj
    · exact absurd hj hm
  first j hj hji := by
    rcases hj.of_concat with hj | ⟨rfl, -⟩
    · obtain ⟨k, hk, hjk⟩ := h.first j hj hji
      exact ⟨k, hk.concat, hjk⟩
    · exact absurd h.gives.lt_length (Nat.lt_asymm hji)

/-- A document that was closed after all texts that it got is opened by the next. -/
theorem OpenedAt.last {text : String} (hm : m.edit? = some (uri, some text))
    (hc : ∀ j, Gives ms uri j → ∃ k, Closes ms uri k ∧ j < k) :
    OpenedAt (ms ++ [m]) uri ms.length where
  gives := ⟨text, by rw [editAt?_concat, if_pos rfl, hm]⟩
  stays j hj := by
    rcases hj.of_concat with hj | ⟨-, he⟩
    · exact lt_length_of_editAt? hj
    · simp [hm] at he
  first j hj hjl := by
    rcases hj.of_concat with hj | ⟨rfl, -⟩
    · obtain ⟨k, hk, hjk⟩ := hc j hj
      exact ⟨k, hk.concat, hjk⟩
    · exact absurd hjl (Nat.lt_irrefl _)

/-! ## What a message does -/

namespace Workspace

variable {w : Workspace}

/-- The documents after a message; one without an answer changes nothing. -/
def step (w : Workspace) (m : Message) : Workspace :=
  match w.handle m with
  | .ok (_, w') => w'
  | .error _ => w

/-- The documents after messages. -/
def after (w : Workspace) (ms : List Message) : Workspace := ms.foldl step w

@[simp] theorem after_concat (w : Workspace) (ms : List Message) (m : Message) :
    w.after (ms ++ [m]) = (w.after ms).step m := by
  simp [after]

theorem lookup_put (uri : String) (d : Document) (l : List (String × Document)) (u : String) :
    (put uri d l).lookup u = if u = uri then some d else l.lookup u := by
  induction l with
  | nil => rw [put, lookup_cons_eq]
  | cons p l ih =>
    obtain ⟨k, old⟩ := p
    by_cases hk : k = uri
    · rw [put, if_pos hk, lookup_cons_eq, lookup_cons_eq, hk]
      split <;> rfl
    · rw [put, if_neg hk, lookup_cons_eq, lookup_cons_eq, ih]
      grind

/-- A document keeps its place, a new one comes last. -/
theorem map_fst_put (uri : String) (d : Document) (l : List (String × Document)) :
    (put uri d l).map (·.1) =
      if uri ∈ l.map (·.1) then l.map (·.1) else l.map (·.1) ++ [uri] := by
  induction l with
  | nil => simp [put]
  | cons p l ih =>
    obtain ⟨k, old⟩ := p
    by_cases hk : k = uri
    · simp [put, hk]
    · rw [put, if_neg hk, List.map_cons, ih]
      by_cases h : uri ∈ l.map (·.1) <;> simp [h, Ne.symm hk]

theorem find?_eq_none_iff : w.find? uri = none ↔ uri ∉ w.uris :=
  lookup_eq_none_iff_notMem uri w.documents

/-- Requests read no document but their own, and change none. -/
theorem answer_congr (hm : m.isRequest) {v : Workspace} (h : w.find? m.uri = v.find? m.uri) :
    w.answer m = (v.answer m).map fun r => (r.1, w) := by
  cases m with
  | «open» | change | close => simp [Message.isRequest, Message.edit?] at hm
  | hover u line character =>
    have hw : w.hover u line character = v.hover u line character := by
      simp only [hover, show w.find? u = v.find? u from h]
    simp only [answer, hw]
    cases v.hover u line character <;> rfl
  | definition u line character =>
    have hw : w.definition u line character = v.definition u line character := by
      simp only [definition, show w.find? u = v.find? u from h]
    simp only [answer, hw]
    rfl
  | completion u =>
    have hw : w.completions u = v.completions u := by
      simp only [completions, show w.find? u = v.find? u from h]
    simp only [answer, hw]
    cases v.completions u <;> rfl
  | symbols u =>
    have hw : w.symbols u = v.symbols u := by
      simp only [symbols, show w.find? u = v.find? u from h]
    simp only [answer, hw]
    cases v.symbols u <;> rfl

theorem handle_congr (hm : m.isRequest) {v : Workspace} (h : w.find? m.uri = v.find? m.uri) :
    w.handle m = (v.handle m).map fun r => (r.1, w) := by
  unfold handle
  cases m.fault? with
  | some e => rfl
  | none =>
    simp only [answer_congr hm h]
    cases v.answer m <;> rfl

theorem handle_request (hm : m.isRequest) {r : Answer × Workspace} (h : w.handle m = .ok r) :
    r.2 = w := by
  have hr := handle_congr hm (Eq.refl (w.find? m.uri))
  rw [h] at hr
  exact congrArg Prod.snd (Except.ok.inj hr)

theorem step_request (hm : m.isRequest) : w.step m = w := by
  unfold step
  split
  next h => exact handle_request hm h
  next => rfl

/-- A message changes the document that it edits, and no other. -/
theorem find?_step : (w.step m).find? uri =
    match m.edit? with
    | none => w.find? uri
    | some (u, text?) => if u = uri then text?.map (Document.ofSource uri) else w.find? uri := by
  cases m with
  | «open» u text | change u texts =>
    refine (lookup_put _ _ _ _).trans ?_
    by_cases h : u = uri
    · simp [Message.edit?, h]
    · simp [Message.edit?, h, Ne.symm h, find?]
  | close u =>
    refine (lookup_filter_ne _ _ _).trans ?_
    by_cases h : u = uri
    · simp [Message.edit?, h]
    · simp [Message.edit?, h, Ne.symm h, find?]
  | _ => rw [step_request rfl]; rfl

theorem uris_step : (w.step m).uris =
    match m.edit? with
    | none => w.uris
    | some (u, some _) => if u ∈ w.uris then w.uris else w.uris ++ [u]
    | some (u, none) => w.uris.filter (· ≠ u) := by
  cases m with
  | «open» u text | change u texts => exact map_fst_put _ _ _
  | close u => exact map_fst_filter_ne _ _
  | _ => rw [step_request rfl]; rfl

/-! ## What messages do -/

/-- A document is what its latest text makes it. -/
theorem find?_after (uri : String) (ms : List Message) :
    (empty.after ms).find? uri = (latestText? uri ms).map (Document.ofSource uri) := by
  induction ms using List.reverseRecOn with
  | nil => rfl
  | append_singleton ms m ih =>
    rw [after_concat, find?_step, latestText?_concat, ih]
    split
    · rfl
    · split <;> rfl

theorem mem_uris_after : uri ∈ (empty.after ms).uris ↔ (latestText? uri ms).isSome := by
  rw [← Decidable.not_iff_not, ← find?_eq_none_iff, find?_after]
  simp

/-- Names of documents in the order in which messages opened them, and none
that is open left out. -/
structure Ordered (ms : List Message) (us : List String) : Prop where
  opened : ∀ u ∈ us, ∃ i, OpenedAt ms u i
  closed : ∀ u ∉ us, ∀ j, Gives ms u j → ∃ k, Closes ms u k ∧ j < k
  sorted : us.Pairwise fun u v => ∃ i j, OpenedAt ms u i ∧ OpenedAt ms v j ∧ i < j

namespace Ordered

variable {us : List String}

/-- A request, or another text for a document that is open, keeps the order. -/
theorem keep (h : Ordered ms us)
    (hm : ∀ u text?, m.edit? = some (u, text?) → u ∈ us ∧ text?.isSome) :
    Ordered (ms ++ [m]) us := by
  have stays {u : String} {i : Nat} (hi : OpenedAt ms u i) : OpenedAt (ms ++ [m]) u i :=
    hi.concat fun he => Bool.noConfusion (hm u none he).2
  refine ⟨fun u hu => ?_, fun u hu j hj => ?_, ?_⟩
  · obtain ⟨i, hi⟩ := h.opened u hu
    exact ⟨i, stays hi⟩
  · rcases hj.of_concat with hj | ⟨-, text, he⟩
    · obtain ⟨k, hk, hjk⟩ := h.closed u hu j hj
      exact ⟨k, hk.concat, hjk⟩
    · exact absurd (hm u _ he).1 hu
  · exact h.sorted.imp fun ⟨i, j, hi, hj, hij⟩ => ⟨i, j, stays hi, stays hj, hij⟩

/-- A document that was not open comes last. -/
theorem open_last (h : Ordered ms us) (hu : uri ∉ us) {text : String}
    (hm : m.edit? = some (uri, some text)) : Ordered (ms ++ [m]) (us ++ [uri]) := by
  have stays {u : String} {i : Nat} (hi : OpenedAt ms u i) : OpenedAt (ms ++ [m]) u i :=
    hi.concat fun he => by simp [hm] at he
  have last : OpenedAt (ms ++ [m]) uri ms.length := .last hm (h.closed uri hu)
  refine ⟨fun u hin => ?_, fun u hin j hj => ?_, ?_⟩
  · rcases List.mem_append.mp hin with hin | hin
    · obtain ⟨i, hi⟩ := h.opened u hin
      exact ⟨i, stays hi⟩
    · rw [List.mem_singleton.mp hin]
      exact ⟨_, last⟩
  · rw [List.mem_append, List.mem_singleton, not_or] at hin
    rcases hj.of_concat with hj | ⟨-, text, he⟩
    · obtain ⟨k, hk, hjk⟩ := h.closed u hin.1 j hj
      exact ⟨k, hk.concat, hjk⟩
    · rw [hm] at he
      cases he
      exact absurd rfl hin.2
  · refine List.pairwise_append.mpr ⟨?_, List.pairwise_singleton _ _, fun u hin v hv => ?_⟩
    · exact h.sorted.imp fun ⟨i, j, hi, hj, hij⟩ => ⟨i, j, stays hi, stays hj, hij⟩
    · obtain ⟨i, hi⟩ := h.opened u hin
      rw [List.mem_singleton.mp hv]
      exact ⟨i, _, stays hi, last, hi.gives.lt_length⟩

/-- A document that is closed leaves the others in order. -/
theorem close (h : Ordered ms us) (hm : m.edit? = some (uri, none)) :
    Ordered (ms ++ [m]) (us.filter (· ≠ uri)) := by
  have stays {u : String} {i : Nat} (hu : u ≠ uri) (hi : OpenedAt ms u i) :
      OpenedAt (ms ++ [m]) u i :=
    hi.concat fun he => by simp [hm, hu.symm] at he
  have mem {u : String} : u ∈ us.filter (· ≠ uri) ↔ u ∈ us ∧ u ≠ uri := by
    simp
  refine ⟨fun u hin => ?_, fun u hin j hj => ?_, ?_⟩
  · obtain ⟨hin, hu⟩ := mem.mp hin
    obtain ⟨i, hi⟩ := h.opened u hin
    exact ⟨i, stays hu hi⟩
  · rcases hj.of_concat with hj | ⟨-, text, he⟩
    · by_cases hu : u = uri
      · refine ⟨ms.length, ?_, hj.lt_length⟩
        rw [Closes, editAt?_concat, if_pos rfl, hm, hu]
      · obtain ⟨k, hk, hjk⟩ := h.closed u (fun hus => hin (mem.mpr ⟨hus, hu⟩)) j hj
        exact ⟨k, hk.concat, hjk⟩
    · simp [hm] at he
  · refine (h.sorted.filter _).imp_of_mem fun hu hv ⟨i, j, hi, hj, hij⟩ => ?_
    exact ⟨i, j, stays (mem.mp hu).2 hi, stays (mem.mp hv).2 hj, hij⟩

end Ordered

/-- The open documents stand in the order in which they were opened. -/
theorem ordered_after (ms : List Message) : Ordered ms (empty.after ms).uris := by
  induction ms using List.reverseRecOn with
  | nil => exact ⟨nofun, fun _ _ _ hj => absurd hj.lt_length (Nat.not_lt_zero _), .nil⟩
  | append_singleton ms m ih =>
    rw [after_concat, uris_step]
    split
    next hm => exact ih.keep fun u text? he => by simp [hm] at he
    next u text hm =>
      split
      next hu => exact ih.keep fun v text? he => by cases hm.symm.trans he; exact ⟨hu, rfl⟩
      next hu => exact ih.open_last hu hm
    next u hm => exact ih.close hm

/-- A request about a document that is not open is answered as if none were. -/
theorem handle_of_closed {a : Answer} (hm : m.isRequest) (hu : latestText? m.uri ms = none)
    (he : empty.handle m = .ok (a, empty)) :
    (empty.after ms).handle m = .ok (a, empty.after ms) := by
  have hfind : (empty.after ms).find? m.uri = empty.find? m.uri := by
    rw [find?_after, hu]
    rfl
  rw [handle_congr hm hfind, he]
  rfl

/-- **What an editor asks is answered from the latest text of one document.**
After any messages, in any order:
* a request changes no document;
* open are the documents that the last message to open, change or close them
  did not close, in the order in which they were first opened or changed since
  they were last closed;
* a request about an open document is answered as if nothing had been sent
  but that document with its latest text;
* about any other document there is nothing to show, no binding, no symbol and
  no completion but the keywords. -/
theorem history_independent (ms : List Message) :
    (∀ m r, m.isRequest → (empty.after ms).handle m = .ok r → r.2 = empty.after ms) ∧
    (∀ uri, uri ∈ (empty.after ms).uris ↔ (latestText? uri ms).isSome) ∧
    ((empty.after ms).uris.Pairwise fun u v =>
      ∃ i j, OpenedAt ms u i ∧ OpenedAt ms v j ∧ i < j) ∧
    (∀ m text, m.isRequest → latestText? m.uri ms = some text →
      ((empty.after ms).handle m).map (·.1) =
        ((empty.after [.open m.uri text]).handle m).map (·.1)) ∧
    (∀ uri, latestText? uri ms = none →
      (∀ line character, positionFault? line character = none →
        (empty.after ms).handle (.hover uri line character) = .ok (.nothing, empty.after ms) ∧
        (empty.after ms).handle (.definition uri line character) =
          .ok (.nothing, empty.after ms) ∧
        (empty.after ms).handle (.completion uri line character) =
          .ok (.completions keywordCompletions, empty.after ms)) ∧
      (empty.after ms).handle (.symbols uri) = .ok (.symbols [], empty.after ms)) := by
  refine ⟨fun m r hm h => handle_request hm h, fun uri => mem_uris_after,
    (ordered_after ms).sorted, fun m text hm ht => ?_, fun uri hu => ?_⟩
  · have hfind : (empty.after ms).find? m.uri = (empty.after [.open m.uri text]).find? m.uri := by
      rw [find?_after, ht, find?_after]
      simp [latestText?, edits, Message.edit?]
    rw [handle_congr hm hfind]
    cases (empty.after [.open m.uri text]).handle m <;> rfl
  · refine ⟨fun line character hp => ⟨?_, ?_, ?_⟩, handle_of_closed rfl hu rfl⟩
    · exact handle_of_closed rfl hu (by simp [handle, Message.fault?, hp]; rfl)
    · exact handle_of_closed rfl hu (by simp [handle, Message.fault?, hp]; rfl)
    · exact handle_of_closed rfl hu (by simp [handle, Message.fault?, hp]; rfl)

/-- A document that is closed and changed once more begins anew, behind the
others and without what its first text bound. -/
theorem history_independent_reopened :
    let ms : List Message :=
      [.open "a" "let x = 1;", .open "b" "x", .hover "a" 0 4, .close "a", .change "a" []]
    (empty.after ms).uris = ["b", "a"] ∧
      ((empty.after ms).handle (.hover "a" 0 4)).map (·.1) =
        ((empty.after [.open "a" ""]).handle (.hover "a" 0 4)).map (·.1) :=
  ⟨by decide +kernel, (history_independent _).2.2.2.1 _ _ rfl rfl⟩

end Workspace

end ExprLang.Editor
