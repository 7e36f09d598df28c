/-!
# Fresh names

New names are a stem and a number: the numbers are tried one after the other from
the last one given out, and the first name that is not in use is taken. Among one
more candidate than there are names in use one is free, so that many trials are
always enough.
-/

namespace BlockProgram.Fresh

/-- The candidate with a number. -/
def name (stem : String) (n : Nat) : String := stem ++ toString n

/-- The number of the first candidate after `last` that is not in use, when at most
`tries` candidates can be in use. -/
def next (stem : String) (inUse : String → Bool) : (tries last : Nat) → Nat
  | 0, last => last + 1
  | tries + 1, last =>
    if inUse (name stem (last + 1)) then next stem inUse tries (last + 1) else last + 1

@[simp] theorem next_zero (stem : String) (inUse : String → Bool) (last : Nat) :
    next stem inUse 0 last = last + 1 := rfl

/-- A candidate that is free is taken at once. -/
theorem next_of_free {stem : String} {inUse : String → Bool} {tries last : Nat}
    (h : inUse (name stem (last + 1)) = false) : next stem inUse tries last = last + 1 := by
  cases tries <;> simp [next, h]

/-- Numbers only go up. -/
theorem lt_next (stem : String) (inUse : String → Bool) (tries last : Nat) :
    last < next stem inUse tries last := by
  induction tries generalizing last with
  | zero => simp
  | succ tries ih =>
    rw [next]
    split
    · exact Nat.lt_trans (Nat.lt_succ_self last) (ih (last + 1))
    · exact Nat.lt_succ_self last

end BlockProgram.Fresh
