import LoopNest.Proofs.Program.Rearrangement
/-!
# Proofs.Description.Filling — lists left out, and empty ones

Some formats do not tell a list that is left out from an empty one.  `filledIn` puts the empty list in place of none,
in a tensor, a program or a description.  The checks do not see the difference: a program has the same problem after it
is filled in (`Program.problem?_filledIn`), so a description filled in is accepted like the original
(`Description.program_filledIn`).
-/
namespace LoopNest

/-- The tensor with an empty list of ranks in place of none. -/
def Tensor.filledIn (t : Tensor) : Tensor := ⟨t.root, some t.ranks⟩

/-- The entry with an empty list of steps in place of none. -/
def RuleEntry.filledIn (e : RuleEntry) : RuleEntry := ⟨e.rank, some (e.steps.getD [])⟩

theorem RuleEntry.rule_filledIn (e : RuleEntry) : e.filledIn.rule = e.rule := rfl

namespace Program

/-- The program with empty lists in place of those left out. -/
def filledIn (p : Program) : Program := { p with tensors := p.tensors.map Tensor.filledIn }

theorem tensor?_filledIn (p : Program) (x : String) : p.filledIn.tensor? x = (p.tensor? x).map Tensor.filledIn := by
  rw [tensor?, tensor?, filledIn, List.find?_map]
  rfl

theorem isSome_tensor?_filledIn (p : Program) (x : String) : (p.filledIn.tensor? x).isSome = (p.tensor? x).isSome := by
  rw [tensor?_filledIn, Option.isSome_map]

theorem tensorsProblem?_filledIn : ∀ (ts : List Tensor) (seen : List String),
    tensorsProblem? seen (ts.map Tensor.filledIn) = tensorsProblem? seen ts
  | [], _ => rfl
  | t :: ts, seen => by
    rw [List.map_cons, tensorsProblem?, tensorsProblem?, tensorsProblem?_filledIn]
    rfl

theorem leaderProblem?_filledIn (p : Program) (rank : String) (s : Step) :
    p.filledIn.leaderProblem? rank s = p.leaderProblem? rank s := by
  unfold leaderProblem?
  rw [tensor?_filledIn]
  cases p.tensor? s.leader with
  | none => rfl
  | some t => rfl

theorem ruleProblem?_filledIn (p : Program) (r : Rule) : p.filledIn.ruleProblem? r = p.ruleProblem? r := by
  have hdeclares : p.filledIn.declares = p.declares := by
    funext x
    rw [declares, declares, filledIn, List.any_map]
    rfl
  have hleader : p.filledIn.leaderProblem? r.rank = p.leaderProblem? r.rank :=
    funext (p.leaderProblem?_filledIn r.rank)
  rw [ruleProblem?, ruleProblem?, hdeclares, hleader]

/-- **The checks do not see whether a list was left out.** -/
theorem problem?_filledIn (p : Program) : p.filledIn.problem? = p.problem? := by
  have hempty : p.filledIn.tensors.isEmpty = p.tensors.isEmpty := List.isEmpty_map
  have htensors : tensorsProblem? [] p.filledIn.tensors = tensorsProblem? [] p.tensors := tensorsProblem?_filledIn _ _
  have hrules : p.filledIn.ruleProblem? = p.ruleProblem? := funext p.ruleProblem?_filledIn
  have hcover : p.filledIn.tensors.findSome? p.filledIn.coverageProblem? = p.tensors.findSome? p.coverageProblem? := by
    rw [filledIn, List.findSome?_map]
    rfl
  rw [problem?, problem?, hempty, htensors, hrules, hcover]
  simp only [isSome_tensor?_filledIn]
  rfl

end Program

namespace Description

/-- **The description with empty lists in place of those left out.** -/
def filledIn (d : Description) : Description where
  output := d.output
  loops := some (d.loops.getD [])
  tensors := some ((d.tensors.getD []).map Tensor.filledIn)
  rules := some ((d.rules.getD []).map RuleEntry.filledIn)

theorem getD_filled {α : Type} (l : List α) : (filled l).getD [] = l := by
  cases l <;> rfl

/-- **A description filled in gives the program filled in.** -/
theorem program_filledIn {d : Description} {p : Program} (h : d.program = .ok p) :
    d.filledIn.program = .ok p.filledIn := by
  obtain ⟨rules, hrules, rfl, hprob⟩ := program_eq_ok_iff.1 h
  refine program_eq_ok_iff.2 ⟨rules, ?_, rfl, (Program.problem?_filledIn _).trans hprob⟩
  have hmap : (d.filledIn.rules.getD []).map RuleEntry.rule = (d.rules.getD []).map RuleEntry.rule := by
    simp [filledIn, RuleEntry.rule_filledIn]
  rw [hmap, hrules]

theorem rules_ofProgram (p : Program) : ((ofProgram p).rules.getD []).map RuleEntry.rule = p.rules.rules := by
  have hrule : ∀ r ∈ p.rules.rules, (RuleEntry.mk r.rank (filled r.steps)).rule = r := by
    intro r _
    rw [RuleEntry.rule, getD_filled]
  rw [ofProgram, getD_filled, List.map_map]
  exact (List.map_congr_left hrule).trans (List.map_id _)

/-- **The description of a program gives that program.** -/
theorem program_ofProgram {p : Program} (hp : p.Validated) : (ofProgram p).program = .ok p := by
  obtain ⟨⟨rs, hrs⟩, hmake⟩ := hp
  obtain ⟨hrules, -⟩ := RuleSet.addAll_eq_ok_iff.1 hrs
  have hrs' : rs = p.rules.rules := by rw [hrules]; rfl
  refine program_eq_ok_iff.2 ⟨p.rules, ?_, ?_, Program.problem?_of_make hmake⟩
  · rw [rules_ofProgram, ← hrs', hrs]
  · rw [ofProgram, getD_filled]
    rfl

theorem filledIn_ofProgram (p : Program) : (ofProgram p.filledIn).filledIn = (ofProgram p).filledIn := by
  have htensors : (p.tensors.map Tensor.filledIn).map Tensor.filledIn = p.tensors.map Tensor.filledIn := by
    rw [List.map_map]
    rfl
  simp only [ofProgram, filledIn, Program.filledIn, getD_filled, htensors]

end Description
end LoopNest
