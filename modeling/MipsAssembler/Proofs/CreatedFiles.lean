/-
Files that are created one after the other.

* `Directory.Names` — which file a path names, and `Directory.target_eq_ok_iff` — when it can be created;
* `Directory.createUntil` — files are created in order, up to the first one that cannot be;
* `Directory.Updated` — what each location holds then: the last text that was written there, or what it
  held before;
* `Directory.updated_createUntil` — the files that were created are the first ones of those that were to
  be.

Design notes: which file a path names is up to the system and stays the same, but whether it can be created
may depend on all files that are there at that moment.  Paths that name the same location are the same
file, which is why later texts are compared by location and not by path.
-/
import MipsAssembler.CommandLine.Directory
import MipsAssembler.Proofs.Outcome

namespace MipsAssembler.CommandLine.Directory

variable {d d' : Directory} {path text : String} {location location' : Location} {obstacle : Obstacle}
  {files : List (String × String)}

/-! ### One file -/

/-- The contents of the file at a location, if there is one. -/
def contents (d : Directory) (location : Location) : Option ByteArray := d.files.lookup location

/-- Whether `location` is the file that a path names. -/
def Names (d : Directory) (path : String) (location : Location) : Prop :=
  d.follow path = .ok (.entry location .exact)

theorem Names.eq (h : d.Names path location) (h' : d.Names path location') : location = location' := by
  obtain ⟨rfl, -⟩ := Place.entry.inj (Except.ok.inj (h.symm.trans h'))
  rfl

/-- A file can be created if its path names it and nothing that is there speaks against it. -/
theorem target_eq_ok_iff :
    d.target path = .ok location ↔ d.Names path location ∧ d.refusal d.files location = none := by
  rw [target, bind_eq_ok_iff]
  constructor
  · rintro ⟨place, hplace, hok⟩
    -- Of all places that a path may lead to, only an entry at its end can be created.
    split at hok
    case h_4 location' =>
      split at hok
      · cases hok
      case h_2 hrefusal =>
        obtain rfl := Except.ok.inj hok
        exact ⟨hplace, hrefusal⟩
    case h_3 =>
      obtain ⟨_, -, hok⟩ := bind_eq_ok_iff.mp hok
      cases hok
    all_goals cases hok
  · rintro ⟨hplace, hrefusal⟩
    refine ⟨_, hplace, ?_⟩
    simp only [hrefusal]

theorem create_eq_ok_iff :
    d.create path text = .ok d' ↔
      ∃ location, d.target path = .ok location ∧ d' = d.put location text.toUTF8 := by
  simp only [create, bind_eq_ok_iff, pure_eq_ok_iff, @eq_comm _ d']

theorem contents_put_self (d : Directory) (location : Location) (bytes : ByteArray) :
    (d.put location bytes).contents location = some bytes :=
  List.lookup_cons_self

theorem lookup_filter_of_ne (h : location' ≠ location) (files : Files) :
    (files.filter (·.1 != location)).lookup location' = files.lookup location' := by
  induction files with
  | nil => rfl
  | cons file files ih =>
    by_cases hfile : file.1 = location
    · have hskip : (location' == file.1) = false := by simpa [hfile] using h
      rw [List.filter_cons_of_neg (by simpa using hfile), ih, List.lookup_cons, hskip]
    · rw [List.filter_cons_of_pos (by simpa using hfile), List.lookup_cons, List.lookup_cons, ih]

theorem contents_put_of_ne (h : location' ≠ location) (bytes : ByteArray) :
    (d.put location bytes).contents location' = d.contents location' := by
  have hskip : (location' == location) = false := by simpa using h
  simp only [contents, put, List.lookup_cons, hskip, lookup_filter_of_ne h]

/-! ### Several files -/

/-- The directory with new files, one after the other, up to the first that cannot be created, and the
reason why it cannot be. -/
def createUntil (d : Directory) : List (String × String) → Directory × Option Obstacle
  | [] => (d, none)
  | (path, text) :: files =>
    match d.create path text with
    | .ok d => d.createUntil files
    | .error obstacle => (d, some obstacle)

theorem createUntil_cons_of_ok (h : d.create path text = .ok d') :
    d.createUntil ((path, text) :: files) = d'.createUntil files := by
  rw [createUntil, h]

theorem createUntil_cons_of_error (h : d.create path text = .error obstacle) :
    d.createUntil ((path, text) :: files) = (d, some obstacle) := by
  rw [createUntil, h]

/-- Whether `d'` is `d` after `files` were created in order: a location holds the last text that was
written to it, and the locations that nothing was written to are as they were. -/
structure Updated (d : Directory) (files : List (String × String)) (d' : Directory) : Prop where
  /-- Nothing but files has changed. -/
  system : d' = { d with files := d'.files }
  named : ∀ f ∈ files, ∃ location, d.Names f.1 location
  last : ∀ before path text after location, files = before ++ (path, text) :: after →
    d.Names path location → (∀ f ∈ after, ¬d.Names f.1 location) →
      d'.contents location = some text.toUTF8
  other : ∀ location, (∀ f ∈ files, ¬d.Names f.1 location) →
    d'.contents location = d.contents location

theorem updated_nil (d : Directory) : d.Updated [] d where
  system := rfl
  named := by simp
  last before path text after location h := by simp at h
  other location _ := rfl

/-- One more file in front: it is overwritten by a later one at the same location, and only by that. -/
theorem Updated.cons (hnames : d.Names path location)
    (h : (d.put location text.toUTF8).Updated files d') : d.Updated ((path, text) :: files) d' := by
  refine ⟨h.system, List.forall_mem_cons.mpr ⟨⟨location, hnames⟩, h.named⟩, ?_, ?_⟩
  · intro before path' text' after location' hfiles hnames' hafter
    cases before with
    | nil =>
      -- No later file goes where the first one went, so its text stays.
      obtain ⟨hfirst, rfl⟩ := List.cons.inj hfiles
      obtain ⟨rfl, rfl⟩ := Prod.mk.inj hfirst
      obtain rfl := hnames.eq hnames'
      rw [h.other location hafter]
      exact contents_put_self d location _
    | cons f before =>
      obtain ⟨-, rfl⟩ := List.cons.inj hfiles
      exact h.last before path' text' after location' rfl hnames' hafter
  · intro location' hnone
    obtain ⟨hfirst, hfiles⟩ := List.forall_mem_cons.mp hnone
    rw [h.other location' hfiles]
    refine contents_put_of_ne ?_ _
    rintro rfl
    exact hfirst hnames

/-- The files that were created are the first ones of those that were to be, and there is a next one
exactly if something was in its way. -/
theorem updated_createUntil (d : Directory) (files : List (String × String)) :
    ∃ created rest, files = created ++ rest ∧ d.Updated created (d.createUntil files).1 ∧
      (rest = [] ↔ (d.createUntil files).2 = none) := by
  induction files generalizing d with
  | nil => exact ⟨[], [], rfl, updated_nil d, fun _ => rfl, fun _ => rfl⟩
  | cons f files ih =>
    obtain ⟨path, text⟩ := f
    cases hcreate : d.create path text with
    | error obstacle =>
      rw [createUntil_cons_of_error hcreate]
      exact ⟨[], _, rfl, updated_nil d, ⟨nofun, nofun⟩⟩
    | ok d₁ =>
      -- The rest is created in the directory that the first file has left behind.
      obtain ⟨location, htarget, rfl⟩ := create_eq_ok_iff.mp hcreate
      rw [createUntil_cons_of_ok hcreate]
      obtain ⟨created, rest, rfl, hupdated, hend⟩ := ih (d.put location text.toUTF8)
      exact ⟨(path, text) :: created, rest, rfl, hupdated.cons (target_eq_ok_iff.mp htarget).1, hend⟩

theorem updated_of_createUntil (h : (d.createUntil files).2 = none) :
    d.Updated files (d.createUntil files).1 := by
  obtain ⟨created, rest, hfiles, hupdated, hend⟩ := updated_createUntil d files
  rw [hend.mpr h, List.append_nil] at hfiles
  obtain rfl := hfiles
  exact hupdated

/-- Something in the way of one file leaves everything as it was. -/
theorem fst_createUntil_of_ne_none (hlength : files.length ≤ 1) (h : (d.createUntil files).2 ≠ none) :
    (d.createUntil files).1 = d := by
  cases files with
  | nil => rfl
  | cons f files =>
    obtain rfl := List.eq_nil_of_length_eq_zero (l := files) (by simpa using hlength)
    obtain ⟨path, text⟩ := f
    cases hcreate : d.create path text with
    | error obstacle => rw [createUntil_cons_of_error hcreate]
    | ok d₁ =>
      rw [createUntil_cons_of_ok hcreate] at h
      exact absurd rfl h

end MipsAssembler.CommandLine.Directory
