import BlockProgram.CommandLine.Shell
import Mathlib.Data.List.Basic

/-!
# Paths and files

The full path of a file leads to the file, however the path looked that it was made of. A text that
is put into a file is found there, and nothing else in the working directory changes: no path leads
to another place, and what can be written still can.
-/

namespace BlockProgram.CommandLine.WorkingDirectory

/-! ### Steps -/

/-- A word between slashes has none. -/
theorem not_mem_of_mem_splitOn {c : Char} {cs word : List Char} (h : word ∈ cs.splitOn c) :
    c ∉ word := by
  induction cs generalizing word with
  | nil =>
    obtain rfl := List.mem_singleton.mp h
    exact List.not_mem_nil
  | cons a cs ih =>
    rw [List.splitOn_cons_eq_if_modifyHead] at h
    split at h
    · rcases List.mem_cons.mp h with rfl | h
      · exact List.not_mem_nil
      · exact ih h
    · rename_i hne
      cases hwords : cs.splitOn c with
      | nil => exact absurd hwords (List.splitOn_ne_nil c cs)
      | cons first rest =>
        rw [hwords, List.modifyHead_cons, List.mem_cons] at h
        rw [hwords] at ih
        rcases h with rfl | h
        · rw [List.mem_cons, not_or]
          exact ⟨fun heq => hne (by simp [heq]), ih List.mem_cons_self⟩
        · exact ih (List.mem_cons_of_mem _ h)

theorem slash_not_mem {path step : String} (h : step ∈ stepsOf path) : '/' ∉ step.toList := by
  obtain ⟨word, hword, rfl⟩ := List.mem_map.mp h
  rw [String.toList_ofList]
  exact not_mem_of_mem_splitOn hword

theorem intercalate_stepsOf (path : String) : "/".intercalate (stepsOf path) = path := by
  have htoList : (stepsOf path).map String.toList = path.toList.splitOn '/' := by
    simp [stepsOf, Function.comp_def]
  rw [← String.toList_inj, String.toList_intercalate, htoList]
  exact List.intercalate_splitOn '/'

theorem stepsOf_intercalate {steps : List String} (hne : steps ≠ [])
    (h : ∀ step ∈ steps, '/' ∉ step.toList) : stepsOf ("/".intercalate steps) = steps := by
  have hwords : List.splitOn '/' (['/'].intercalate (steps.map String.toList)) =
      steps.map String.toList :=
    List.splitOn_intercalate '/' (List.forall_mem_map.mpr h) (by simpa using hne)
  rw [stepsOf, String.toList_intercalate, show "/".toList = ['/'] from rfl, hwords, List.map_map]
  simp [Function.comp_def]

/-- How many bytes steps take, with a slash between them. -/
theorem utf8ByteSize_intercalate_cons (step : String) (steps : List String) :
    ("/".intercalate (step :: steps)).utf8ByteSize =
      step.utf8ByteSize + if steps = [] then 0 else 1 + ("/".intercalate steps).utf8ByteSize := by
  split
  · rename_i hnil
    rw [hnil, String.intercalate_singleton, Nat.add_zero]
  · rename_i hne
    rw [String.intercalate_cons_of_ne_nil hne, String.utf8ByteSize_append,
      String.utf8ByteSize_append, show "/".utf8ByteSize = 1 from rfl, Nat.add_assoc]

/-- Fewer steps take no more bytes. -/
theorem utf8ByteSize_intercalate_le {part whole : List String} (h : part.Sublist whole) :
    ("/".intercalate part).utf8ByteSize ≤ ("/".intercalate whole).utf8ByteSize := by
  induction h with
  | slnil => exact Nat.le_refl _
  | @cons part whole step h ih =>
    rw [utf8ByteSize_intercalate_cons]
    split
    · rename_i hnil
      subst hnil
      rw [List.sublist_nil.mp h]
      exact Nat.zero_le _
    · omega
  | @cons_cons part whole step h ih =>
    rw [utf8ByteSize_intercalate_cons, utf8ByteSize_intercalate_cons]
    by_cases hwhole : whole = []
    · subst hwhole
      obtain rfl := List.sublist_nil.mp h
      exact Nat.le_refl _
    · rw [if_neg hwhole]
      split <;> omega

theorem mem_intercalate {c : Char} (hc : c ≠ '/') (steps : List String) :
    c ∈ ("/".intercalate steps).toList ↔ ∃ step ∈ steps, c ∈ step.toList := by
  induction steps with
  | nil => simp
  | cons step steps ih =>
    cases steps with
    | nil => simp
    | cons next rest =>
      rw [String.intercalate_cons_of_ne_nil (List.cons_ne_nil _ _), String.toList_append,
        String.toList_append, List.mem_append, List.mem_append, ih]
      simp [hc]

/-- Some of the steps of a path, none of them empty, make a path. -/
theorem isPath_intercalate {path : String} (h : isPath path) {steps : List String}
    (hsub : steps.Sublist (stepsOf path)) (hempty : "" ∉ steps) :
    isPath ("/".intercalate steps) := by
  simp only [isPath, Bool.and_eq_true, bne_iff_ne, Bool.not_eq_true', List.all_eq_true,
    List.contains_eq_mem, decide_eq_true_eq, decide_eq_false_iff_not] at h ⊢
  obtain ⟨⟨⟨-, hnul⟩, hsize⟩, hlength⟩ := h
  cases steps with
  | nil => decide
  | cons first rest =>
    have hslash : ∀ step ∈ first :: rest, '/' ∉ step.toList := fun step hmem =>
      slash_not_mem (hsub.subset hmem)
    refine ⟨⟨⟨?_, ?_⟩, ?_⟩, ?_⟩
    · obtain ⟨more, hmore⟩ : ∃ more, ("/".intercalate (first :: rest)).toList =
          first.toList ++ more := by
        cases rest with
        | nil => exact ⟨[], by simp⟩
        | cons next rest =>
          rw [String.intercalate_cons_of_ne_nil (List.cons_ne_nil _ _), String.append_assoc]
          exact ⟨_, String.toList_append⟩
      rw [hmore]
      cases hfirst : first.toList with
      | nil =>
        rw [String.toList_eq_nil_iff] at hfirst
        exact absurd List.mem_cons_self (hfirst ▸ hempty)
      | cons c cs =>
        have hc := hslash first List.mem_cons_self
        rw [hfirst, List.mem_cons, not_or] at hc
        simpa using Ne.symm hc.1
    · rw [mem_intercalate (by decide)]
      rintro ⟨step, hmem, hstep⟩
      rw [← intercalate_stepsOf path, mem_intercalate (by decide)] at hnul
      exact hnul ⟨step, hsub.subset hmem, hstep⟩
    · rw [← intercalate_stepsOf path] at hsize
      exact Nat.le_trans (utf8ByteSize_intercalate_le hsub) hsize
    · rw [stepsOf_intercalate (List.cons_ne_nil _ _) hslash]
      exact fun step hmem => hlength step (hsub.subset hmem)

/-! ### Places -/

/-- Steps that lead straight down from here: each is the name of something, and each but the last
one leads to a directory. -/
structure Descends (d : WorkingDirectory) (steps : List String) : Prop where
  /-- Each step is the name of something. -/
  names : ∀ step ∈ steps, step ∉ ["", ".", ".."]
  /-- Each step but the last one leads to a directory. -/
  directories : ∀ before, before <+: steps → before ≠ steps → d.entry? before = some .directory

variable {d : WorkingDirectory}

theorem Descends.initial {steps before : List String} (h : d.Descends steps)
    (hbefore : before <+: steps) : d.Descends before where
  names step hmem := h.names step (hbefore.subset hmem)
  directories first hfirst hne :=
    h.directories first (hfirst.trans hbefore) fun heq =>
      hne (hfirst.eq_of_length_le (heq ▸ hbefore.length_le))

theorem Descends.concat {place : List String} {step : String} (h : d.Descends place)
    (hplace : d.entry? place = some .directory) (hstep : step ∉ ["", ".", ".."]) :
    d.Descends (place ++ [step]) where
  names other hmem := by
    rcases List.mem_append.mp hmem with hmem | hmem
    · exact h.names other hmem
    · rwa [List.mem_singleton.mp hmem]
  directories before hbefore hne := by
    rcases List.prefix_concat_iff.mp hbefore with heq | hbefore
    · exact absurd heq hne
    · by_cases heq : before = place
      · rwa [heq]
      · exact h.directories before hbefore heq

/-- A path that leads to a place does so straight down in the end. -/
theorem descends_of_resolveFrom? {place path steps : List String} (hplace : d.Descends place)
    (h : d.resolveFrom? place path = some steps) :
    d.Descends steps ∧ steps.Sublist (place ++ path) := by
  induction path generalizing place with
  | nil =>
    cases h
    exact ⟨hplace, by simp⟩
  | cons step path ih =>
    rw [resolveFrom?] at h
    split at h
    · cases h
    · rename_i hdirectory
      rw [not_not] at hdirectory
      split at h
      · obtain ⟨hdown, hsub⟩ := ih hplace h
        exact ⟨hdown, hsub.trans ((List.sublist_cons_self step path).append_left place)⟩
      · rename_i hname
        split at h
        · split at h
          · cases h
          · have hparent : place.dropLast <+: place := List.dropLast_prefix place
            obtain ⟨hdown, hsub⟩ := ih (hplace.initial hparent) h
            exact ⟨hdown, hsub.trans (hparent.sublist.append (List.sublist_cons_self step path))⟩
        · rename_i hup
          obtain ⟨hdown, hsub⟩ := ih (hplace.concat hdirectory (by simp_all)) h
          rw [List.append_assoc] at hsub
          exact ⟨hdown, hsub⟩

/-- Steps that lead straight down lead to where they say. -/
theorem Descends.resolveFrom? {place path : List String} (h : d.Descends (place ++ path)) :
    d.resolveFrom? place path = some (place ++ path) := by
  induction path generalizing place with
  | nil => simp [WorkingDirectory.resolveFrom?]
  | cons step path ih =>
    have hdirectory := h.directories place (List.prefix_append _ _) (by simp)
    have hstep := h.names step (by simp)
    simp only [List.mem_cons, List.not_mem_nil, or_false, not_or] at hstep
    rw [List.append_cons] at h ⊢
    simp only [WorkingDirectory.resolveFrom?, hdirectory, hstep, ih h]
    simp

/-- **The full path of a place leads there.** -/
theorem resolve?_intercalate {path : String} {steps : List String}
    (h : d.resolve? path = some steps) : d.resolve? ("/".intercalate steps) = some steps := by
  rw [resolve?] at h
  split at h
  · rename_i hpath
    obtain ⟨hdown, hsub⟩ := descends_of_resolveFrom? ⟨by simp, by simp⟩ h
    have hempty : "" ∉ steps := fun hmem => hdown.names "" hmem (by simp)
    rw [resolve?, if_pos (isPath_intercalate hpath hsub hempty)]
    cases steps with
    | nil => rfl
    | cons first rest =>
      rw [stepsOf_intercalate (List.cons_ne_nil _ _) fun step hmem =>
        slash_not_mem (hsub.subset hmem)]
      exact hdown.resolveFrom?
  · cases h

/-! ### Writing -/

/-- A text is put into the file at the end of steps. -/
def put (d : WorkingDirectory) (steps : List String) (text : String) : WorkingDirectory :=
  { d with entries := setEntry steps (.text text) d.entries }

theorem lookup_setEntry (steps place : List String) (e : Entry)
    (entries : List (List String × Entry)) :
    (setEntry steps e entries).lookup place =
      if place = steps then some e else entries.lookup place := by
  have hcons : ∀ (key : List String) (value : Entry) (rest : List (List String × Entry)),
      ((key, value) :: rest).lookup place =
        if place = key then some value else rest.lookup place := by
    intro key value rest
    by_cases h : place = key
    · simp [h]
    · rw [List.lookup_cons, beq_eq_false_iff_ne.mpr h, if_neg h]
  induction entries with
  | nil => rw [setEntry, hcons]
  | cons other rest ih =>
    obtain ⟨key, value⟩ := other
    rw [setEntry]
    by_cases hkey : key = steps
    · rw [if_pos hkey, hcons, hcons, hkey]
      split <;> rfl
    · rw [if_neg hkey, hcons, hcons, ih]
      by_cases h : place = key
      · rw [if_pos h, if_neg (h ▸ hkey), if_pos h]
      · rw [if_neg h, if_neg h]

theorem entry?_put {steps : List String} (hne : steps ≠ []) (text : String) (place : List String) :
    entry? (d.put steps text) place =
      if place = steps then some (.text text) else d.entry? place := by
  cases place with
  | nil => rw [if_neg (Ne.symm hne)]; rfl
  | cons step place => exact lookup_setEntry _ _ _ _

/-- Two working directories have the same directories. -/
def SameTree (d d' : WorkingDirectory) : Prop :=
  ∀ place, d'.entry? place = some .directory ↔ d.entry? place = some .directory

namespace SameTree

variable {d' : WorkingDirectory}

theorem resolveFrom? (h : d.SameTree d') (place path : List String) :
    d'.resolveFrom? place path = d.resolveFrom? place path := by
  induction path generalizing place with
  | nil => rfl
  | cons step path ih => simp only [WorkingDirectory.resolveFrom?, ne_eq, h place, ih]

theorem resolve? (h : d.SameTree d') (path : String) : d'.resolve? path = d.resolve? path := by
  simp only [WorkingDirectory.resolve?, h.resolveFrom?]

theorem target? (h : d.SameTree d') (path : String) : d'.target? path = d.target? path := by
  simp only [WorkingDirectory.target?, h.resolveFrom?, ne_eq, h _]

end SameTree

theorem entry?_of_entries_eq {d' : WorkingDirectory} (h : d'.entries = d.entries)
    (place : List String) : d'.entry? place = d.entry? place := by
  cases place with
  | nil => rfl
  | cons step place => exact congrArg (List.lookup (step :: place)) h

theorem sameTree_of_entries_eq {d' : WorkingDirectory} (h : d'.entries = d.entries) :
    d.SameTree d' := fun place => by rw [entry?_of_entries_eq h]

/-- Where a path leads is a matter of the entries alone. -/
theorem at?_of_entries_eq {d' : WorkingDirectory} (h : d'.entries = d.entries) (path : String) :
    d'.at? path = d.at? path := by
  rw [at?, at?, (sameTree_of_entries_eq h).resolve?, funext (entry?_of_entries_eq h)]

theorem resolveFrom?_append (place path more : List String) :
    d.resolveFrom? place (path ++ more) =
      (d.resolveFrom? place path).bind fun place => d.resolveFrom? place more := by
  induction path generalizing place with
  | nil => rfl
  | cons step path ih =>
    simp only [List.cons_append, resolveFrom?, ih]
    split_ifs <;> rfl

/-- What can be written is found at the end of the same steps, and it is no directory. -/
theorem resolve?_of_target? {path : String} {steps : List String}
    (h : d.target? path = some steps) :
    d.resolve? path = some steps ∧ steps ≠ [] ∧ d.entry? steps ≠ some .directory := by
  rw [target?, Option.bind_eq_bind, Option.bind_eq_some_iff] at h
  obtain ⟨name, hname, h⟩ := h
  split at h
  · rename_i hpath
    obtain ⟨place, hplace, h⟩ := Option.bind_eq_some_iff.mp h
    dsimp only at h
    split at h
    · cases h
    · rename_i hfree
      cases h
      simp only [List.contains_eq_mem, Bool.or_eq_true, decide_eq_true_eq, not_or, not_not,
        ne_eq] at hfree
      obtain ⟨⟨hstep, hdirectory⟩, hplain⟩ := hfree
      refine ⟨?_, by simp, hplain⟩
      simp only [List.mem_cons, List.not_mem_nil, or_false, not_or] at hstep
      rw [resolve?, if_pos hpath, ← List.dropLast_append_getLast? name hname, resolveFrom?_append,
        hplace, Option.bind_some]
      simp [resolveFrom?, hdirectory, hstep]
  · cases h

theorem sameTree_put {path : String} {steps : List String} (h : d.target? path = some steps)
    (text : String) : d.SameTree (d.put steps text) := by
  obtain ⟨-, hne, hplain⟩ := resolve?_of_target? h
  intro place
  rw [entry?_put hne]
  split
  · rename_i heq
    rw [heq]
    simp [hplain]
  · rfl

/-- **A text that has been written is found.** -/
theorem at?_put {path : String} {steps : List String} (h : d.target? path = some steps)
    (text : String) : (d.put steps text).at? path = some (.text text) := by
  obtain ⟨hresolve, hne, -⟩ := resolve?_of_target? h
  rw [at?, (sameTree_put h text).resolve?, hresolve, Option.bind_some, entry?_put hne, if_pos rfl]

/-- What is found at other places stays. -/
theorem at?_put_of_ne {path other : String} {steps place : List String}
    (h : d.target? path = some steps) (hother : d.resolve? other = some place)
    (hne : place ≠ steps) (text : String) : (d.put steps text).at? other = d.at? other := by
  obtain ⟨-, hsome, -⟩ := resolve?_of_target? h
  rw [at?, at?, (sameTree_put h text).resolve?, hother, Option.bind_some, Option.bind_some,
    entry?_put hsome, if_neg hne]

end BlockProgram.CommandLine.WorkingDirectory
