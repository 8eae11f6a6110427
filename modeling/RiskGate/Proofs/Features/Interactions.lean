import Mathlib
import RiskGate.Features.Extraction

/-! # State writes around external calls

The scan goes through writes and external calls together and never turns back. Where both are in
order it counts what can be said without it: a write comes after the interaction exactly if some
external call has a smaller position.

* `inOrder_iff`: positions are in order if no two of them, adjacent or not, are out of order;
* `CallPassed`, what the scan knows at a write, with `callPassed_step_iff` for one step and
  `scanWrites_eq` for a run;
* `ContractFunction.FirstInteraction`, the external calls that no other one comes before;
* `writesAroundInteraction_ordered`: the two counts, and what they do not depend on.
-/

namespace RiskGate

/-! ## Positions in order -/

theorem inOrder_iff {positions : List UInt32} :
    inOrder positions = true ↔ positions.Pairwise (· ≤ ·) := by
  rw [← List.isChain_iff_pairwise]
  fun_induction inOrder positions with
  | case1 p q rest ih => simp [ih]
  | case2 positions hshort =>
    cases positions with
    | nil => simp
    | cons p rest =>
      cases rest with
      | nil => simp
      | cons q rest => exact absurd rfl (hshort p q rest)

/-! ## The scan -/

/-- The scan has an external call behind it when it gets to the write: from before it began, or
passed on the way. -/
def CallPassed (seen : Bool) (calls : List UInt32) (write : UInt32) : Prop :=
  seen = true ∨ ∃ call ∈ calls, call < write

instance (seen : Bool) (calls : List UInt32) (write : UInt32) :
    Decidable (CallPassed seen calls write) :=
  inferInstanceAs (Decidable (_ ∨ _))

section

variable {calls writes : List UInt32} {write later : UInt32}

/-- Calls in order are passed on the way to a write exactly if one of them comes before it. -/
theorem length_dropWhile_lt_iff (hcalls : calls.Pairwise (· ≤ ·)) :
    (calls.dropWhile (· < write)).length < calls.length ↔ ∃ call ∈ calls, call < write := by
  cases calls with
  | nil => simp
  | cons call calls =>
    rcases List.pairwise_cons.mp hcalls with ⟨hfirst, -⟩
    by_cases hlt : call < write
    · have hle : (calls.dropWhile (· < write)).length ≤ calls.length :=
        (List.dropWhile_sublist _).length_le
      have hdropped : (call :: calls).dropWhile (· < write) = calls.dropWhile (· < write) := by
        simp [hlt]
      rw [hdropped, List.length_cons]
      exact iff_of_true (by omega) ⟨call, List.mem_cons_self, hlt⟩
    · have hstays : (call :: calls).dropWhile (· < write) = call :: calls := by
        simp [hlt]
      rw [hstays]
      refine iff_of_false (Nat.lt_irrefl _) ?_
      -- the first call is the least one
      rintro ⟨other, hother, hbefore⟩
      rcases List.mem_cons.mp hother with rfl | hmem
      · exact hlt hbefore
      · exact hlt (UInt32.lt_of_le_of_lt (hfirst other hmem) hbefore)

/-- What the scan finds out at a write. -/
theorem seen_or_passed_eq (hcalls : calls.Pairwise (· ≤ ·)) (seen : Bool) :
    (seen || decide ((calls.dropWhile (· < write)).length < calls.length)) =
      decide (CallPassed seen calls write) := by
  rw [Bool.eq_iff_iff, Bool.or_eq_true, decide_eq_true_iff, decide_eq_true_iff,
    length_dropWhile_lt_iff hcalls, CallPassed]

/-- A step forgets the calls that it passes and remembers that there were any: for the writes that
follow, this is the same. -/
theorem callPassed_step_iff (seen : Bool) (hle : write ≤ later) :
    CallPassed (decide (CallPassed seen calls write)) (calls.dropWhile (· < write)) later ↔
      CallPassed seen calls later := by
  constructor
  · rintro (hdecided | ⟨call, hcall, hlt⟩)
    · rcases of_decide_eq_true hdecided with hseen | ⟨call, hcall, hlt⟩
      · exact Or.inl hseen
      · exact Or.inr ⟨call, hcall, UInt32.lt_of_lt_of_le hlt hle⟩
    · exact Or.inr ⟨call, (List.dropWhile_sublist _).mem hcall, hlt⟩
  · rintro (hseen | ⟨call, hcall, hlt⟩)
    · exact Or.inl (decide_eq_true (Or.inl hseen))
    · rw [← List.takeWhile_append_dropWhile (p := (· < write)) (l := calls)] at hcall
      rcases List.mem_append.mp hcall with hpassed | hahead
      · have hbefore : call < write := by simpa using List.mem_takeWhile_imp hpassed
        have hmem : call ∈ calls := (List.takeWhile_sublist _).mem hpassed
        exact Or.inl (decide_eq_true (Or.inr ⟨call, hmem, hbefore⟩))
      · exact Or.inr ⟨call, hahead, hlt⟩

/-- A run of the scan counts the writes that have a call behind them, and the others. -/
theorem scanWrites_eq (hcalls : calls.Pairwise (· ≤ ·)) (hwrites : writes.Pairwise (· ≤ ·))
    (seen : Bool) :
    scanWrites seen calls writes =
      (writes.countP (¬ CallPassed seen calls ·), writes.countP (CallPassed seen calls ·)) := by
  induction writes generalizing seen calls with
  | nil => rfl
  | cons write writes ih =>
    rcases List.pairwise_cons.mp hwrites with ⟨hlater, hrest⟩
    let ahead := calls.dropWhile (· < write)
    let seen' := decide (CallPassed seen calls write)
    have hahead : ahead.Pairwise (· ≤ ·) := hcalls.sublist (List.dropWhile_sublist _)
    have hstep : scanWrites seen calls (write :: writes) =
        if seen' then ((scanWrites seen' ahead writes).1, (scanWrites seen' ahead writes).2 + 1)
        else ((scanWrites seen' ahead writes).1 + 1, (scanWrites seen' ahead writes).2) := by
      rw [scanWrites, seen_or_passed_eq hcalls]
    have hsame : ∀ later ∈ writes, CallPassed seen' ahead later ↔ CallPassed seen calls later :=
      fun later hmem => callPassed_step_iff seen (hlater later hmem)
    have hafter : writes.countP (CallPassed seen' ahead ·) =
        writes.countP (CallPassed seen calls ·) :=
      List.countP_congr fun later hmem => by simp [hsame later hmem]
    have hbefore : writes.countP (¬ CallPassed seen' ahead ·) =
        writes.countP (¬ CallPassed seen calls ·) :=
      List.countP_congr fun later hmem => by simp [hsame later hmem]
    rw [hstep, ih hahead hrest, hafter, hbefore, List.countP_cons, List.countP_cons]
    by_cases hpassed : CallPassed seen calls write
    · simp [seen', hpassed]
    · simp [seen', hpassed]

end

/-! ## Functions -/

namespace ContractFunction

/-- Some external call of the function comes strictly before the write. -/
def FollowsInteraction (f : ContractFunction) (write : StateWrite) : Prop :=
  ∃ site ∈ f.callSites, site.leavesContract = true ∧ site.position < write.position

instance (f : ContractFunction) (write : StateWrite) : Decidable (f.FollowsInteraction write) :=
  inferInstanceAs (Decidable (∃ site ∈ f.callSites, _))

/-- An external call of the function that no other one comes before. Several calls of one statement
may share the place. -/
structure FirstInteraction (f : ContractFunction) (first : CallSite) : Prop where
  mem : first ∈ f.callSites
  leaves : first.leavesContract = true
  le : ∀ site ∈ f.callSites, site.leavesContract = true → first.position ≤ site.position

variable {f : ContractFunction}

theorem FirstInteraction.followsInteraction_iff {first : CallSite} (h : f.FirstInteraction first)
    (write : StateWrite) : f.FollowsInteraction write ↔ first.position < write.position := by
  constructor
  · rintro ⟨site, hsite, hleaves, hlt⟩
    exact UInt32.lt_of_le_of_lt (h.le site hsite hleaves) hlt
  · intro hlt
    exact ⟨first, h.mem, h.leaves, hlt⟩

/-- A first external call that is kept stays one when other calls are removed. -/
theorem FirstInteraction.of_sublist {first : CallSite} (h : f.FirstInteraction first)
    {sites : List CallSite} (hsites : sites.Sublist f.callSites) (hmem : first ∈ sites) :
    { f with callSites := sites }.FirstInteraction first where
  mem := hmem
  leaves := h.leaves
  le := fun site hsite => h.le site (hsites.mem hsite)

theorem writesAroundInteraction_eq (hcalls : inOrder (f.callSites.map (·.position)) = true)
    (hwrites : inOrder (f.stateWrites.map (·.position)) = true) :
    f.writesAroundInteraction =
      (f.stateWrites.countP (¬ f.FollowsInteraction ·),
        f.stateWrites.countP (f.FollowsInteraction ·)) := by
  have hexternal : ((f.callSites.filter (·.leavesContract)).map (·.position)).Pairwise (· ≤ ·) :=
    (inOrder_iff.mp hcalls).sublist (List.filter_sublist.map _)
  have hpassed : ∀ write : StateWrite,
      CallPassed false ((f.callSites.filter (·.leavesContract)).map (·.position)) write.position ↔
        f.FollowsInteraction write := by
    intro write
    simp [CallPassed, FollowsInteraction, and_assoc]
  rw [writesAroundInteraction, scanWrites_eq hexternal (inOrder_iff.mp hwrites), List.countP_map,
    List.countP_map]
  simp only [Function.comp_def, hpassed]

/-- Of a function with its calls and writes in order, the writes with an external call before them
are counted apart from the others, and every write is counted once. A write in the statement of the
first external call is one of the others. Internal calls have no part in this, and neither has any
external call as long as a first one is kept. -/
theorem writesAroundInteraction_ordered
    (hcalls : inOrder (f.callSites.map (·.position)) = true)
    (hwrites : inOrder (f.stateWrites.map (·.position)) = true) :
    f.writesAroundInteraction =
      (f.stateWrites.countP (¬ f.FollowsInteraction ·),
        f.stateWrites.countP (f.FollowsInteraction ·)) ∧
    f.writesAroundInteraction.1 + f.writesAroundInteraction.2 = f.stateWrites.length ∧
    (∀ first, f.FirstInteraction first → f.writesAroundInteraction =
      (f.stateWrites.countP (·.position ≤ first.position),
        f.stateWrites.countP (first.position < ·.position))) ∧
    (∀ sites : List CallSite,
      sites.filter (·.leavesContract) = f.callSites.filter (·.leavesContract) →
      { f with callSites := sites }.writesAroundInteraction = f.writesAroundInteraction) ∧
    ∀ sites first, sites.Sublist f.callSites → first ∈ sites → f.FirstInteraction first →
      { f with callSites := sites }.writesAroundInteraction = f.writesAroundInteraction := by
  have hcounts := writesAroundInteraction_eq hcalls hwrites
  refine ⟨hcounts, ?_, ?_, ?_, ?_⟩
  · rw [hcounts]
    have hlength := List.length_eq_countP_add_countP (f.FollowsInteraction ·) (l := f.stateWrites)
    simp only [decide_eq_true_eq] at hlength
    omega
  · intro first hfirst
    simp only [hcounts, hfirst.followsInteraction_iff, UInt32.not_lt]
  · intro sites hsites
    rw [writesAroundInteraction, writesAroundInteraction, hsites]
  · intro sites first hsublist hmem hfirst
    have hkept := hfirst.of_sublist hsublist hmem
    have hsites : inOrder (sites.map (·.position)) = true :=
      inOrder_iff.mpr ((inOrder_iff.mp hcalls).sublist (hsublist.map _))
    rw [hcounts, writesAroundInteraction_eq (f := { f with callSites := sites }) hsites hwrites]
    simp only [hkept.followsInteraction_iff, hfirst.followsInteraction_iff]

/-- A function that checks, pays two parties in one statement, and logs. -/
def settle : ContractFunction where
  id := "settle"
  visibility := .externally
  callSites := [
    { kind := .internal, name := "check", position := 1 },
    { kind := .send, name := "send", position := 3 },
    { kind := .lowLevel, name := "call", position := 3 },
    { kind := .internal, name := "log", position := 4 },
    { kind := .external, name := "notify", position := 6 }]
  stateWrites := [⟨"locked", 2⟩, ⟨"paid", 3⟩, ⟨"balance", 5⟩, ⟨"locked", 7⟩]

theorem writesAroundInteraction_settle :
    inOrder (settle.callSites.map (·.position)) = true ∧
    inOrder (settle.stateWrites.map (·.position)) = true ∧
    settle.writesAroundInteraction = (2, 2) ∧
    { settle with
      callSites := [{ kind := .send, name := "send", position := 3 }] }.writesAroundInteraction =
        (2, 2) := by
  have hcalls : inOrder (settle.callSites.map (·.position)) = true := by decide
  have hwrites : inOrder (settle.stateWrites.map (·.position)) = true := by decide
  have hfirst : settle.FirstInteraction { kind := .send, name := "send", position := 3 } :=
    ⟨by decide, by decide, by decide⟩
  rcases writesAroundInteraction_ordered hcalls hwrites with ⟨-, -, hcounts, -, hremoved⟩
  have hvalue : settle.writesAroundInteraction = (2, 2) := (hcounts _ hfirst).trans (by decide)
  have hsublist :
      List.Sublist [{ kind := .send, name := "send", position := 3 }] settle.callSites := by decide
  exact ⟨hcalls, hwrites, hvalue,
    (hremoved _ _ hsublist List.mem_cons_self hfirst).trans hvalue⟩

end ContractFunction

end RiskGate
