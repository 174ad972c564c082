/-
Tables over whole histories.

A table is filled one request after the other, and a request that is refused leaves it as it was.  So
the table can be read off the answers that the requests got, whatever they were:

* `SymbolTable.after`, `SymbolTable.history` — the table after some requests, and the requests with
  their answers;
* `SymbolTable.insert_eq_error_iff` — why a request is refused;
* `SymbolTable.after_keeps` — what every accepted request keeps holds after any requests;
* `SymbolTable.symbols_after` — the entries are the requests that were accepted, in order;
* `SymbolTable.entries_are_the_accepted_requests` — which requests are accepted, and what is found.

Design notes: whether a request is accepted depends on the accepted requests before it and on nothing
else.  The statements speak of the answers in the history, so that no second rule for acceptance is
needed beside the table's own.
-/
import MipsAssembler.Proofs.TableEntries

namespace MipsAssembler.SymbolTable

/-- The table after a request for the entry `s`, which may be refused. -/
def request (t : SymbolTable) (s : Symbol) : SymbolTable :=
  match t.insert s.name s.address with
  | .ok t' => t'
  | .error _ => t

/-- The table after some requests. -/
def after (t : SymbolTable) (requests : List Symbol) : SymbolTable := requests.foldl request t

/-- The answer to a request: nothing but that it was accepted, or why it was not. -/
abbrev Answer := Except Error Unit

/-- The answer to a request for the entry `s`. -/
def answer (t : SymbolTable) (s : Symbol) : Answer := (t.insert s.name s.address).map fun _ => ()

/-- Requests with their answers, each on the table that the requests before it led to. -/
def history (t : SymbolTable) : List Symbol → List (Symbol × Answer)
  | [] => []
  | s :: requests => (s, t.answer s) :: history (t.request s) requests

/-- The requests of a history that were accepted. -/
def accepted (answered : List (Symbol × Answer)) : List Symbol :=
  answered.filterMap fun
    | (s, .ok _) => some s
    | (_, .error _) => none

@[simp] theorem accepted_cons_ok (s : Symbol) (u : Unit) (answered : List (Symbol × Answer)) :
    accepted ((s, .ok u) :: answered) = s :: accepted answered := rfl

@[simp] theorem accepted_cons_error (s : Symbol) (e : Error) (answered : List (Symbol × Answer)) :
    accepted ((s, .error e) :: answered) = accepted answered := rfl

theorem mem_accepted_iff {answered : List (Symbol × Answer)} {s : Symbol} :
    s ∈ accepted answered ↔ (s, .ok ()) ∈ answered := by
  induction answered with
  | nil => simp [accepted]
  | cons x answered ih =>
    obtain ⟨s', r⟩ := x
    cases r with
    | ok u => simp [ih]
    | error e => simp [ih]

/-! ### One request -/

section Request

variable {t t' : SymbolTable} {s : Symbol} {e : Error}

theorem insert_eq_ok_iff :
    t.insert s.name s.address = .ok t' ↔
      s.address % 4 = 0 ∧ ¬(t.mode = .distinct ∧ t.hasName s.name) ∧ t' = t.push s := by
  rw [insert, map_eq_ok_iff]
  constructor
  · rintro ⟨s', hs', rfl⟩
    obtain ⟨haligned, hnew, rfl⟩ := entryFor_eq_ok_iff.mp hs'
    exact ⟨haligned, hnew, rfl⟩
  · rintro ⟨haligned, hnew, rfl⟩
    exact ⟨s, entryFor_eq_ok_iff.mpr ⟨haligned, hnew, rfl⟩, rfl⟩

/-- The alignment is looked at before the name. -/
theorem insert_eq_error_iff :
    t.insert s.name s.address = .error e ↔
      (s.address % 4 ≠ 0 ∧ e = .misalignedAddress s.address) ∨
      (s.address % 4 = 0 ∧ (t.mode = .distinct ∧ t.hasName s.name) ∧ e = .duplicateName s.name) := by
  rw [insert, entryFor]
  by_cases haligned : s.address % 4 = 0
  · rw [if_neg (by omega)]
    -- The address is at a word boundary, which leaves the name.
    by_cases hname : t.mode = .distinct ∧ t.hasName s.name
    · rw [if_pos hname]
      simp only [Except.map, Except.error.injEq, haligned, hname, ne_eq, not_true_eq_false, false_and,
        true_and, false_or, and_self, eq_comm]
    · rw [if_neg hname]
      simp [Except.map, haligned, hname]
  · rw [if_pos haligned]
    simp only [Except.map, Except.error.injEq, haligned, ne_eq, not_false_eq_true, false_and,
      true_and, or_false, eq_comm]

theorem request_of_insert (h : t.insert s.name s.address = .ok t') : t.request s = t' := by
  rw [request, h]

theorem request_of_refused (h : t.insert s.name s.address = .error e) : t.request s = t := by
  rw [request, h]

theorem answer_of_insert (h : t.insert s.name s.address = .ok t') : t.answer s = .ok () := by
  rw [answer, h]
  rfl

theorem answer_of_refused (h : t.insert s.name s.address = .error e) : t.answer s = .error e := by
  rw [answer, h]
  rfl

end Request

/-! ### All requests -/

theorem after_append (t : SymbolTable) (before later : List Symbol) :
    t.after (before ++ later) = (t.after before).after later :=
  List.foldl_append

theorem history_append (t : SymbolTable) (before later : List Symbol) :
    t.history (before ++ later) = t.history before ++ (t.after before).history later := by
  induction before generalizing t with
  | nil => rfl
  | cons s before ih =>
    show (s, t.answer s) :: (t.request s).history (before ++ later) = _
    rw [ih]
    rfl

/-- What every accepted request keeps holds of the table after any requests. -/
theorem after_keeps {P : SymbolTable → Prop}
    (hstep : ∀ {t t' : SymbolTable} {s : Symbol}, P t → t.insert s.name s.address = .ok t' → P t')
    {t : SymbolTable} (h : P t) (requests : List Symbol) : P (t.after requests) := by
  induction requests generalizing t with
  | nil => exact h
  | cons s requests ih =>
    show P ((t.request s).after requests)
    apply ih
    cases hs : t.insert s.name s.address with
    | ok t' =>
      rw [request_of_insert hs]
      exact hstep h hs
    | error e =>
      rw [request_of_refused hs]
      exact h

theorem mode_after (t : SymbolTable) (requests : List Symbol) :
    (t.after requests).mode = t.mode := by
  refine after_keeps (P := fun t' => t'.mode = t.mode) ?_ rfl requests
  intro t₁ t' s hmode hs
  obtain ⟨-, -, rfl⟩ := insert_eq_ok_iff.mp hs
  exact hmode

theorem Aligned.after {t : SymbolTable} (h : t.Aligned) (requests : List Symbol) :
    (t.after requests).Aligned :=
  after_keeps (fun ht hs => ht.insert hs) h requests

theorem nodup_names_after {t : SymbolTable} (hmode : t.mode = .distinct)
    (h : (t.symbols.toList.map Symbol.name).Nodup) (requests : List Symbol) :
    ((t.after requests).symbols.toList.map Symbol.name).Nodup := by
  refine (after_keeps (P := fun t' => t'.mode = .distinct ∧
    (t'.symbols.toList.map Symbol.name).Nodup) ?_ ⟨hmode, h⟩ requests).2
  rintro t₁ t' s ⟨hmode, hnodup⟩ hs
  obtain ⟨-, hnew, rfl⟩ := insert_eq_ok_iff.mp hs
  -- In a table of distinct names a request for a known one is refused.
  have hname : s.name ∉ t₁.symbols.toList.map Symbol.name := by
    intro hmem
    exact hnew ⟨hmode, hasName_iff.mpr hmem⟩
  refine ⟨hmode, ?_⟩
  rw [toList_symbols_push, List.map_append]
  exact List.nodup_append.mpr ⟨hnodup, by simp, by
    intro name hmem name' hmem' heq
    rw [heq, List.mem_singleton.mp hmem'] at hmem
    exact hname hmem⟩

/-- The entries behind those of the table are the accepted requests. -/
theorem symbols_after (t : SymbolTable) (requests : List Symbol) :
    (t.after requests).symbols.toList = t.symbols.toList ++ accepted (t.history requests) := by
  induction requests generalizing t with
  | nil => exact (List.append_nil _).symm
  | cons s requests ih =>
    show ((t.request s).after requests).symbols.toList =
      t.symbols.toList ++ accepted ((s, t.answer s) :: (t.request s).history requests)
    rw [ih]
    cases hs : t.insert s.name s.address with
    | ok t' =>
      obtain ⟨-, -, rfl⟩ := insert_eq_ok_iff.mp hs
      rw [request_of_insert hs, answer_of_insert hs, toList_symbols_push, List.append_assoc]
      rfl
    | error e => rw [request_of_refused hs, answer_of_refused hs, accepted_cons_error]

/-- The entries of a table that was empty at first are the accepted requests. -/
theorem symbols_after_empty (mode : NameMode) (requests : List Symbol) :
    ((empty mode).after requests).symbols.toList = accepted ((empty mode).history requests) := by
  rw [symbols_after]
  rfl

theorem hasName_after_iff {mode : NameMode} {requests : List Symbol} {name : String} :
    ((empty mode).after requests).hasName name ↔
      ∃ s, (s, .ok ()) ∈ (empty mode).history requests ∧ s.name = name := by
  rw [hasName_iff, symbols_after_empty]
  simp only [List.mem_map, mem_accepted_iff]

/-- The first accepted request with a name. -/
theorem find?_accepted_eq_some_iff {answered : List (Symbol × Answer)} {name : String} {s : Symbol} :
    (accepted answered).find? (·.name == name) = some s ↔
      s.name = name ∧ ∃ earlier later, answered = earlier ++ (s, .ok ()) :: later ∧
        ∀ s', (s', .ok ()) ∈ earlier → s'.name ≠ name := by
  rw [accepted, List.find?_filterMap, Option.bind_eq_some_iff]
  constructor
  · rintro ⟨⟨s', r⟩, hfind, hs⟩
    obtain ⟨hhere, earlier, later, hsplit, hearlier⟩ := List.find?_eq_some_iff_append.mp hfind
    -- A refused request has no entry, so the one that is found was accepted.
    cases r with
    | error e => cases hs
    | ok u =>
      obtain rfl := Option.some_inj.mp hs
      refine ⟨by simpa using hhere, earlier, later, hsplit, ?_⟩
      intro s'' hmem
      simpa using hearlier _ hmem
  · rintro ⟨hname, earlier, later, hsplit, hearlier⟩
    refine ⟨(s, .ok ()), List.find?_eq_some_iff_append.mpr ?_, rfl⟩
    refine ⟨by simpa using hname, earlier, later, hsplit, ?_⟩
    rintro ⟨s', r⟩ hmem
    cases r with
    | ok u => simpa using hearlier s' hmem
    | error e => rfl

/-- Which request decides what is found: the first accepted one with the name. -/
theorem lookup_after_eq_ok_iff {mode : NameMode} {requests : List Symbol} {name : String}
    {address : Nat} :
    ((empty mode).after requests).lookup name = .ok address ↔
      ∃ earlier later, (empty mode).history requests = earlier ++ (⟨name, address⟩, .ok ()) :: later ∧
        ∀ s, (s, .ok ()) ∈ earlier → s.name ≠ name := by
  rw [lookup_eq_ok_iff, symbols_after_empty]
  simp only [find?_accepted_eq_some_iff]
  constructor
  · rintro ⟨s, ⟨rfl, hfirst⟩, rfl⟩
    exact hfirst
  · intro hfirst
    exact ⟨⟨name, address⟩, ⟨rfl, hfirst⟩, rfl⟩

theorem lookup_after_eq_error_iff {mode : NameMode} {requests : List Symbol} {name : String}
    {e : Error} :
    ((empty mode).after requests).lookup name = .error e ↔
      (∀ s, (s, .ok ()) ∈ (empty mode).history requests → s.name ≠ name) ∧ e = .notFound name := by
  rw [lookup_eq_error_iff, hasName_after_iff]
  simp

/-! ### Whole histories -/

/-- Whether a request for `s` was answered by `r` as it should be, behind the requests that were
answered `earlier`, and led from the table `t` to `t'`. -/
structure Answered (mode : NameMode) (earlier : List (Symbol × Answer)) (t : SymbolTable) (s : Symbol)
    (r : Answer) (t' : SymbolTable) : Prop where
  accepted_iff : r = .ok () ↔ s.address % 4 = 0 ∧
    (mode = .distinct → ∀ s', (s', .ok ()) ∈ earlier → s'.name ≠ s.name)
  accepted : r = .ok () → t' = t.push s
  /-- A misaligned address is reported whether or not the name is taken. -/
  refused : ∀ e, r = .error e → t' = t ∧
    e = if s.address % 4 ≠ 0 then .misalignedAddress s.address else .duplicateName s.name

theorem answered_after (mode : NameMode) (before : List Symbol) (s : Symbol) :
    Answered mode ((empty mode).history before) ((empty mode).after before) s
      (((empty mode).after before).answer s) ((empty mode).after (before ++ [s])) := by
  have hmode : ((empty mode).after before).mode = mode := mode_after _ before
  -- A name is taken in the table exactly if an accepted request has it.
  have hfree : ¬(((empty mode).after before).mode = .distinct ∧
        ((empty mode).after before).hasName s.name) ↔
      (mode = .distinct → ∀ s', (s', .ok ()) ∈ (empty mode).history before → s'.name ≠ s.name) := by
    rw [hmode, hasName_after_iff]
    simp
  have hlast : (empty mode).after (before ++ [s]) = ((empty mode).after before).request s :=
    after_append _ before [s]
  rw [hlast]
  cases hs : ((empty mode).after before).insert s.name s.address with
  | ok t' =>
    obtain ⟨haligned, hname, hpush⟩ := insert_eq_ok_iff.mp hs
    rw [answer_of_insert hs, request_of_insert hs]
    exact ⟨⟨fun _ => ⟨haligned, hfree.mp hname⟩, fun _ => rfl⟩, fun _ => hpush, nofun⟩
  | error e =>
    rw [answer_of_refused hs, request_of_refused hs]
    refine ⟨⟨nofun, ?_⟩, nofun, ?_⟩
    · rintro ⟨haligned, hname⟩
      rcases insert_eq_error_iff.mp hs with ⟨hmisaligned, -⟩ | ⟨-, htaken, -⟩
      · exact absurd haligned hmisaligned
      · exact absurd htaken (hfree.mpr hname)
    · intro e' he
      obtain rfl := Except.error.inj he
      -- The address is looked at first, so the error says which of the two it was.
      rcases insert_eq_error_iff.mp hs with ⟨hmisaligned, rfl⟩ | ⟨haligned, -, rfl⟩
      · exact ⟨rfl, (if_pos hmisaligned).symm⟩
      · exact ⟨rfl, (if_neg (by omega)).symm⟩

/-- **The entries of a table are the accepted requests.**  A request is accepted if its address is a
multiple of 4 and, where names are distinct, no earlier accepted request has its name; it then comes
behind all entries, and otherwise the table stays as it was.  So addresses are always multiples of 4,
distinct names stay distinct, and nothing that was entered is moved.  A name is found where the first
accepted request for it put it, also after any further requests. -/
theorem entries_are_the_accepted_requests (mode : NameMode) (requests : List Symbol) :
    let table := (empty mode).after requests
    let history := (empty mode).history requests
    table.symbols.toList = accepted history ∧
    (∀ before s later, requests = before ++ s :: later → ∃ r rest,
      history = (empty mode).history before ++ (s, r) :: rest ∧
      Answered mode ((empty mode).history before) ((empty mode).after before) s r
        ((empty mode).after (before ++ [s]))) ∧
    (∀ s ∈ table.symbols.toList, s.address % 4 = 0) ∧
    (mode = .distinct → (table.symbols.toList.map Symbol.name).Nodup) ∧
    (∀ before later, requests = before ++ later →
      ((empty mode).after before).symbols.toList <+: table.symbols.toList ∧
      ∀ name address, ((empty mode).after before).lookup name = .ok address →
        table.lookup name = .ok address) ∧
    (∀ name address, table.lookup name = .ok address ↔
      ∃ earlier later, history = earlier ++ (⟨name, address⟩, .ok ()) :: later ∧
        ∀ s, (s, .ok ()) ∈ earlier → s.name ≠ name) ∧
    ∀ name e, table.lookup name = .error e ↔
      (∀ s, (s, .ok ()) ∈ history → s.name ≠ name) ∧ e = .notFound name := by
  have hempty : (empty mode).Aligned := fun s hs => absurd hs List.not_mem_nil
  refine ⟨symbols_after_empty mode requests, ?_, hempty.after requests, ?_, ?_,
    fun _ _ => lookup_after_eq_ok_iff, fun _ _ => lookup_after_eq_error_iff⟩
  · rintro before s later rfl
    exact ⟨_, _, history_append _ before (s :: later), answered_after mode before s⟩
  · rintro rfl
    exact nodup_names_after rfl (by simp [empty]) requests
  · rintro before later rfl
    -- What earlier requests have entered stays in front of what later ones enter.
    have hstart : ((empty mode).after before).symbols.toList <+:
        ((empty mode).after (before ++ later)).symbols.toList := by
      rw [after_append, symbols_after _ later]
      exact List.prefix_append _ _
    exact ⟨hstart, fun _ _ => lookup_of_isPrefix hstart⟩

/-- Requests of every kind for two names.  The third is refused for its address although its name is
taken, and the first request for `b` takes nothing away from the second. -/
theorem entries_are_the_accepted_requests_of_two_names :
    let requests : List Symbol := [⟨"a", 4⟩, ⟨"b", 6⟩, ⟨"a", 6⟩, ⟨"a", 8⟩, ⟨"b", 12⟩]
    (empty .distinct).history requests =
      [(⟨"a", 4⟩, .ok ()), (⟨"b", 6⟩, .error (.misalignedAddress 6)),
        (⟨"a", 6⟩, .error (.misalignedAddress 6)), (⟨"a", 8⟩, .error (.duplicateName "a")),
        (⟨"b", 12⟩, .ok ())] ∧
    ((empty .distinct).after requests).symbols.toList = [⟨"a", 4⟩, ⟨"b", 12⟩] ∧
    ((empty .distinct).after requests).lookup "b" = .ok 12 := by
  intro requests
  have hhistory : (empty .distinct).history requests =
      [(⟨"a", 4⟩, .ok ()), (⟨"b", 6⟩, .error (.misalignedAddress 6)),
        (⟨"a", 6⟩, .error (.misalignedAddress 6)), (⟨"a", 8⟩, .error (.duplicateName "a")),
        (⟨"b", 12⟩, .ok ())] := by
    cbv
  obtain ⟨hentries, -, -, -, -, hlookup, -⟩ :=
    entries_are_the_accepted_requests .distinct requests
  rw [hhistory] at hentries
  refine ⟨hhistory, hentries, (hlookup "b" 12).mpr ?_⟩
  rw [hhistory]
  exact ⟨[_, _, _, _], [], rfl, by simp⟩

end MipsAssembler.SymbolTable
