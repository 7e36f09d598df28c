/-!
# Partial automata

A text is scanned by an automaton that takes one character after the other and may refuse to
take one. What every step keeps is kept by a run, and a run is not changed by more that the
automaton keeps in mind, as long as its steps are not.
-/

namespace BlockProgram.Text

variable {σ τ : Type} {step : σ → Char → Option σ}

/-- The state of an automaton after some characters, if it takes all of them. -/
def run (step : σ → Char → Option σ) (s : σ) (cs : List Char) : Option σ := cs.foldlM step s

@[simp] theorem run_nil (s : σ) : run step s [] = some s := rfl

@[simp] theorem run_cons (s : σ) (c : Char) (cs : List Char) :
    run step s (c :: cs) = (step s c).bind fun s => run step s cs := rfl

/-- Texts are taken one after the other. -/
theorem run_append (s : σ) (cs ds : List Char) :
    run step s (cs ++ ds) = (run step s cs).bind fun s => run step s ds := List.foldlM_append

/-- If every step keeps a property of states and takes characters of a class only, so does a
run. -/
theorem run_invariant {P : σ → Prop} {p : Char → Prop}
    (hstep : ∀ s c s', P s → step s c = some s' → p c ∧ P s') {s s' : σ} {cs : List Char}
    (hs : P s) (h : run step s cs = some s') : (∀ c ∈ cs, p c) ∧ P s' := by
  induction cs generalizing s with
  | nil =>
    cases h
    exact ⟨fun c hc => absurd hc List.not_mem_nil, hs⟩
  | cons c cs ih =>
    obtain ⟨next, hnext, hrun⟩ := Option.bind_eq_some_iff.mp h
    obtain ⟨hc, hs'⟩ := hstep s c next hs hnext
    obtain ⟨hcs, hend⟩ := ih hs' hrun
    exact ⟨List.forall_mem_cons.mpr ⟨hc, hcs⟩, hend⟩

/-- If every step takes characters of a class only, so does a run. -/
theorem forall_mem_of_run {p : Char → Prop} (hstep : ∀ s c s', step s c = some s' → p c)
    {s s' : σ} {cs : List Char} (h : run step s cs = some s') : ∀ c ∈ cs, p c :=
  (run_invariant (P := fun _ => True) (fun s c s' _ hc => ⟨hstep s c s' hc, trivial⟩) trivial h).1

/-- If one automaton takes every step of another, it takes its runs. -/
theorem run_map {next : τ → Char → Option τ} {f : σ → τ}
    (hstep : ∀ s c s', step s c = some s' → next (f s) c = some (f s')) {s s' : σ}
    {cs : List Char} (h : run step s cs = some s') : run next (f s) cs = some (f s') := by
  induction cs generalizing s with
  | nil =>
    cases h
    rfl
  | cons c cs ih =>
    obtain ⟨middle, hmiddle, hrun⟩ := Option.bind_eq_some_iff.mp h
    rw [run_cons, hstep s c middle hmiddle]
    exact ih hrun

end BlockProgram.Text
