import LoopNest.Flow.Plan
import LoopNest.Description.Format
import LoopNest.Proofs.Description.Toml
import LoopNest.Proofs.Description.Yaml
/-!
# Proofs.Description.Survival — programs survive every format

The description of a validated program, written in any of the formats and read back, gives that program again
(`survives_every_format`).  Two formats bring back every description whose sizes are words.  The third, the indented
one, fills in the lists that were left out, and is asked only about names: the checks have made sure that a program has
no other texts (`worded_ofProgram`).  A plan does not see what was filled in (`Program.plan_filledIn`).
-/
namespace LoopNest

/-! ## Plans -/

namespace Wiring

variable (p : Program)

theorem splitEach_filledIn : ∀ (xs : List String) (c : Cursor), splitEach p.filledIn c xs = splitEach p c xs
  | [], _ => rfl
  | x :: xs, c => by
    simp only [splitEach, splitEach_filledIn xs]
    rfl

theorem dynamicSplit_filledIn (root x : String) : dynamicSplit p.filledIn root x = dynamicSplit p root x := by
  unfold dynamicSplit
  simp only [Program.isSome_tensor?_filledIn]
  rfl

theorem dynamicPart_filledIn (root : String) : ∀ xs, dynamicPart p.filledIn root xs = dynamicPart p root xs
  | [] => rfl
  | x :: xs => by
    rw [dynamicPart, dynamicPart, dynamicSplit_filledIn, dynamicPart_filledIn root xs]

theorem rankPart_filledIn (root : String) : ∀ xs c, rankPart p.filledIn root c xs = rankPart p root c xs
  | [], _ => rfl
  | x :: xs, c => by
    simp only [rankPart, dynamicPart_filledIn, splitEach_filledIn, rankPart_filledIn root xs]
    rfl

theorem walk_filledIn : ∀ (fuel : Nat) (c : Cursor), walk p.filledIn fuel c = walk p fuel c
  | 0, _ => rfl
  | fuel + 1, c => by
    simp only [walk, walk_filledIn fuel]
    rfl

theorem tensorEdges_filledIn (t : Tensor) : tensorEdges p.filledIn t.filledIn = tensorEdges p t := by
  unfold tensorEdges walkAll
  simp only [rankPart_filledIn, walk_filledIn]
  rfl

theorem tensorsEdges_filledIn : ∀ ts, tensorsEdges p.filledIn (ts.map Tensor.filledIn) = tensorsEdges p ts
  | [] => rfl
  | t :: ts => by
    rw [List.map_cons, tensorsEdges, tensorsEdges, tensorEdges_filledIn, tensorsEdges_filledIn ts]

theorem settledOutput_filledIn : settledOutput p.filledIn = settledOutput p := by
  have hcursor : p.filledIn.cursor p.filledIn.outputTensor = p.cursor p.outputTensor := by
    rw [Program.outputTensor, Program.outputTensor, Program.tensor?_filledIn]
    change p.filledIn.cursor (((p.tensor? p.output).map _).getD _) = _
    cases p.tensor? p.output with
    | none => rfl
    | some t => rfl
  rw [settledOutput, settledOutput, hcursor]
  rfl

end Wiring

/-- **The plan of a program does not depend on whether a list was left out.** -/
theorem Program.plan_filledIn (p : Program) : p.filledIn.plan = p.plan := by
  have hgraph : p.filledIn.graph = p.graph := by
    have htensors : Wiring.tensorsEdges p.filledIn p.filledIn.tensors = Wiring.tensorsEdges p p.tensors :=
      Wiring.tensorsEdges_filledIn p p.tensors
    rw [Program.graph, Program.graph, Wiring.edges, Wiring.edges, Wiring.settledOutput_filledIn, htensors]
    rfl
  rw [Program.plan, Program.plan, hgraph]

/-! ## Names in a validated program -/

theorem isName_of_problem? {of : Subject} {x : String} (h : Identifier.problem? of x = none) : IsName x :=
  (Identifier.problem?_eq_none_iff.1 h).1

theorem StepKind.isName {k : StepKind} (h : k.isKnown = true) : IsName k.name := by
  have hk : k ∈ [uniformShape, nwayShape, uniformOccupancy] := of_decide_eq_true h
  simp only [List.mem_cons, List.not_mem_nil, or_false] at hk
  rcases hk with rfl | rfl | rfl <;> decide

theorem Rule.Fit.step {r : Rule} (h : r.Fit) {s : Step} (hs : s ∈ r.steps) :
    s.kind.isKnown = true ∧ (s.isDynamic = true ∨ s.leader = "") := by
  obtain ⟨hkind, -, hleader⟩ := (stepsProblem?_eq_none_iff.1 h.2.2).2.1 s hs
  refine ⟨hkind, ?_⟩
  by_cases hd : s.isDynamic = true
  · exact .inl hd
  · exact .inr (by simpa [hd] using hleader)

namespace Program

variable {p : Program}

theorem Validated.rule_fit (hp : p.Validated) : ∀ r ∈ p.rules.rules, r.Fit := by
  obtain ⟨⟨rs, hrs⟩, -⟩ := hp
  obtain ⟨hrules, hfit, -⟩ := RuleSet.addAll_eq_ok_iff.1 hrs
  rw [hrules]
  exact hfit

theorem Validated.tensor_worded (hp : p.Validated) {t : Tensor} (ht : t ∈ p.tensors) : t.Worded := by
  obtain ⟨-, ⟨hfit, -⟩, -⟩ := problem?_eq_none_iff.1 (problem?_of_make hp.2)
  obtain ⟨hroot, hranks, -⟩ := hfit t ht
  exact ⟨isName_of_problem? hroot, fun r hr => isName_of_problem? (hranks r hr)⟩

theorem Validated.step_worded (hp : p.Validated) {r : Rule} (hr : r ∈ p.rules.rules) {s : Step} (hs : s ∈ r.steps)
    (hw : Text.Word s.size) : s.Worded := by
  obtain ⟨hkind, hleader⟩ := (hp.rule_fit r hr).step hs
  refine ⟨StepKind.isName hkind, hw, hleader.symm.imp_right fun hd => ?_⟩
  obtain ⟨t, ht, hroot, -⟩ := hp.named.leads r hr s hs hd
  exact hroot ▸ (hp.tensor_worded ht).root

theorem Validated.output_isName (hp : p.Validated) : IsName p.output := by
  obtain ⟨-, -, hout, -⟩ := problem?_eq_none_iff.1 (problem?_of_make hp.2)
  obtain ⟨t, ht⟩ := Option.isSome_iff_exists.1 hout
  have hroot : t.root = p.output := by simpa using List.find?_some ht
  exact hroot ▸ (hp.tensor_worded (List.mem_of_find?_eq_some ht)).root

theorem Validated.loop_isName (hp : p.Validated) {x : String} (hx : x ∈ p.loops) : IsName x := by
  obtain ⟨-, -, -, -, hloops, -⟩ := problem?_eq_none_iff.1 (problem?_of_make hp.2)
  exact isName_of_problem? (hloops x hx).1

end Program

namespace Description

/-- **All texts in the description of a validated program are names.** -/
theorem worded_ofProgram {p : Program} (hp : p.Validated)
    (hs : ∀ r ∈ p.rules.rules, ∀ s ∈ r.steps, Text.Word s.size) : (ofProgram p).Worded where
  output := hp.output_isName
  loops := fun _ hr => hp.loop_isName hr
  tensors := by
    intro t ht
    rw [ofProgram, getD_filled] at ht
    exact hp.tensor_worded ht
  rules := by
    intro e he
    rw [ofProgram, getD_filled] at he
    obtain ⟨r, hr, rfl⟩ := List.mem_map.1 he
    refine ⟨isName_of_problem? (hp.rule_fit r hr).1, ?_⟩
    intro s hmem
    rw [getD_filled] at hmem
    exact hp.step_worded hr hmem (hs r hr s hmem)

theorem Worded.sized {d : Description} (h : d.Worded) : d.Sized :=
  fun r hr s hs => ((h.rules r hr).steps s hs).size

/-- What is read back of a description with names: it, or it filled in. -/
theorem parse_encode {d : Description} (h : d.Worded) (f : Format) :
    parse f (d.encode f) = .ok (if f = .yaml then d.filledIn else d) := by
  cases f with
  | toml => simp [parse, encode, readToml_writeToml h.sized]
  | yaml => simp [parse, encode, readYaml?_writeYaml h]
  | json => simp [parse, encode, readJson?_document h.sized]

/-- **A program survives every format.**  Write the description of a validated program, whose sizes are words, in any
format and read it back: it is accepted, and gives a program with the same output, loops, tensors and rules, all in the
same order.  So its description is the same up to lists left out, and so is its plan. -/
theorem survives_every_format (p : Program) (hp : p.Validated)
    (hs : ∀ r ∈ p.rules.rules, ∀ s ∈ r.steps, Text.Word s.size) (f : Format) :
    ∃ d q, parse f ((ofProgram p).encode f) = .ok d ∧ d.program = .ok q ∧
      q.output = p.output ∧ q.loops = p.loops ∧
      q.tensors.map (fun t => (t.root, t.ranks)) = p.tensors.map (fun t => (t.root, t.ranks)) ∧
      q.rules = p.rules ∧ (ofProgram q).filledIn = (ofProgram p).filledIn ∧ q.plan = p.plan := by
  have hparse := parse_encode (worded_ofProgram hp hs) f
  have hprogram := program_ofProgram hp
  by_cases hf : f = .yaml
  · rw [if_pos hf] at hparse
    refine ⟨_, p.filledIn, hparse, program_filledIn hprogram, rfl, rfl, ?_, rfl, filledIn_ofProgram p, p.plan_filledIn⟩
    rw [Program.filledIn, List.map_map]
    rfl
  · rw [if_neg hf] at hparse
    exact ⟨_, p, hparse, hprogram, rfl, rfl, rfl, rfl, rfl, rfl⟩

/-- Words that mean something else in an indented document stand for tensors and ranks, and one tensor has no list of
ranks. -/
def keywords : Program :=
  ⟨[⟨"y", some ["true"]⟩, ⟨"null", some ["true", "n"]⟩, ⟨"off", none⟩], "y", ["true1", "n", "true0"],
    ⟨[⟨"true", [⟨.uniformOccupancy, 4, "null"⟩]⟩]⟩⟩

theorem validated_keywords : keywords.Validated := by
  have h : keywords.problem? = none ∧ RuleSet.empty.addAll keywords.rules.rules = .ok keywords.rules := by
    decide +kernel
  exact .of_problem? h.1 h.2

theorem survives_every_format_keywords :
    keywords.Validated ∧ (∀ r ∈ keywords.rules.rules, ∀ s ∈ r.steps, Text.Word s.size) ∧
      ∃ d q, parse .yaml ((ofProgram keywords).encode .yaml) = .ok d ∧ d.program = .ok q ∧
        q.loops = ["true1", "n", "true0"] ∧
        q.tensors.map (fun t => (t.root, t.ranks)) = [("y", ["true"]), ("null", ["true", "n"]), ("off", [])] ∧
        q.rules = keywords.rules ∧ q.plan = keywords.plan := by
  have hs : ∀ r ∈ keywords.rules.rules, ∀ s ∈ r.steps, Text.Word s.size := by decide
  obtain ⟨d, q, hd, hq, -, hloops, htensors, hrules, -, hplan⟩ :=
    survives_every_format keywords validated_keywords hs .yaml
  exact ⟨validated_keywords, hs, d, q, hd, hq, hloops, htensors, hrules, hplan⟩

end Description
end LoopNest
