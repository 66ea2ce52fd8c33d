import LoopNest.Description.Basic
import LoopNest.Proofs.Program.Naming
/-!
# Proofs.Program.Rearrangement — tensors and rules that are listed in another order

Two rules can stand in one set when no rank is known to both, and this is symmetric: so a list of rules is accepted in
every order or in none (`RuleSet.addAll_perm`).  Look-ups go by names that occur once, so they do not see the order
either (`Program.Alike.agree`), and the checks of a program are about look-ups and members
(`Program.Alike.problem?_eq_none`).  Together: a description accepted in one order is accepted in every order, and the
two programs agree (`Description.Alike.program`).
-/
namespace LoopNest

theorem find?_eq_of_perm {α β : Type} [DecidableEq β] (f : α → β) {l l' : List α} (h : l.Perm l')
    (hnd : (l.map f).Nodup) (b : β) : l.find? (fun a => f a == b) = l'.find? (fun a => f a == b) := by
  have hnd' : (l'.map f).Nodup := (h.map f).nodup_iff.1 hnd
  cases hf : l.find? (fun a => f a == b) with
  | none =>
    refine (List.find?_eq_none.2 fun a ha => ?_).symm
    exact List.find?_eq_none.1 hf a (h.mem_iff.2 ha)
  | some a =>
    have hb : f a = b := by simpa using List.find?_some hf
    have ha := h.mem_iff.1 (List.mem_of_find?_eq_some hf)
    rw [← hb, find?_eq_some_of_nodup f hnd' ha]

/-! ## Rules -/

namespace RuleSet

variable {p q : RuleSet}

/-- **Rules are accepted in every order or in none.** -/
theorem addAll_perm {rs rs' : List Rule} (h : rs.Perm rs') (hp : empty.addAll rs = .ok p) :
    p = ⟨rs⟩ ∧ empty.addAll rs' = .ok ⟨rs'⟩ := by
  obtain ⟨rfl, hfit, hpair, -⟩ := addAll_eq_ok_iff.1 hp
  refine ⟨rfl, addAll_eq_ok_iff.2 ⟨rfl, fun r hr => hfit r (h.mem_iff.2 hr), ?_, by simp [empty]⟩⟩
  exact (h.pairwise_iff Rule.Apart.symm).1 hpair

theorem rule?_eq_of_perm (h : p.rules.Perm q.rules) (hp : p.rules.Pairwise Rule.Apart) : p.rule? = q.rule? := by
  have hnd : (p.rules.map Rule.rank).Nodup :=
    List.pairwise_map.2 (hp.imp fun hapart heq => hapart _ (.inl rfl) (.inl heq.symm))
  exact funext fun x => find?_eq_of_perm Rule.rank h hnd x

theorem split?_eq_of_perm (h : p.rules.Perm q.rules) (hp : p.Coherent) : p.split? = q.split? :=
  funext fun x => find?_eq_of_perm Split.source (h.flatMap_right Rule.splits) hp.nodup_sources x

end RuleSet

/-! ## Programs -/

namespace Program

/-- **The same program with its tensors and its rules listed in another order.** -/
structure Alike (p q : Program) : Prop where
  output : p.output = q.output
  loops : p.loops = q.loops
  tensors : p.tensors.Perm q.tensors
  rules : p.rules.rules.Perm q.rules.rules

/-- **Programs that answer alike**: same loops, same output, and every look-up has the same result. -/
structure Agree (p q : Program) : Prop where
  output : p.output = q.output
  loops : p.loops = q.loops
  tensor : p.tensor? = q.tensor?
  rule : p.rules.rule? = q.rules.rule?
  split : p.rules.split? = q.rules.split?

variable {p q : Program}

theorem Alike.agree (h : p.Alike q) (hp : p.Named) (hapart : p.rules.rules.Pairwise Rule.Apart) : p.Agree q where
  output := h.output
  loops := h.loops
  tensor := funext fun x => find?_eq_of_perm Tensor.root h.tensors hp.nodup_roots x
  rule := RuleSet.rule?_eq_of_perm h.rules hapart
  split := RuleSet.split?_eq_of_perm h.rules hp.coherent

theorem Agree.isPartitioned (h : p.Agree q) : p.rules.isPartitioned = q.rules.isPartitioned := by
  funext x
  rw [RuleSet.isPartitioned, RuleSet.isPartitioned, h.split]

theorem Agree.finals (h : p.Agree q) : p.rules.finals = q.rules.finals := by
  funext x
  rw [RuleSet.finals, RuleSet.finals, h.split]

theorem Agree.covered (h : p.Agree q) : p.Covered = q.Covered := by
  funext x
  rw [Covered, Covered, loopsFor, loopsFor, h.isPartitioned, h.finals, h.loops]

/-- **The checks of a program do not see the order** in which its tensors and rules are listed. -/
theorem Alike.problem?_eq_none (h : p.Alike q) (ha : p.Agree q) (hp : p.problem? = none) : q.problem? = none := by
  have ht : ∀ {t}, t ∈ q.tensors ↔ t ∈ p.tensors := h.tensors.mem_iff.symm
  have hr : ∀ {r}, r ∈ q.rules.rules ↔ r ∈ p.rules.rules := h.rules.mem_iff.symm
  have hnil : q.tensors = [] ↔ p.tensors = [] := by rw [← List.isEmpty_iff, ← h.tensors.isEmpty_eq, List.isEmpty_iff]
  have hroots : (q.tensors.map Tensor.root).Nodup ↔ (p.tensors.map Tensor.root).Nodup :=
    (h.tensors.map _).nodup_iff.symm
  rw [problem?_eq_none_iff] at hp ⊢
  simpa only [ne_eq, ht, hr, hnil, hroots, ← ha.output, ← ha.loops, ← ha.tensor, ← ha.split, ← ha.covered] using hp

end Program

/-! ## Descriptions -/

namespace Description

/-- **The same description with its tensors and its rules listed in another order.** -/
structure Alike (d e : Description) : Prop where
  output : d.output = e.output
  loops : d.loops.getD [] = e.loops.getD []
  tensors : (d.tensors.getD []).Perm (e.tensors.getD [])
  rules : (d.rules.getD []).Perm (e.rules.getD [])

variable {d e : Description} {p : Program}

theorem program_eq_ok_iff : d.program = .ok p ↔ ∃ rules, RuleSet.empty.addAll ((d.rules.getD []).map RuleEntry.rule) =
    .ok rules ∧ p = ⟨d.tensors.getD [], d.output, d.loops.getD [], rules⟩ ∧ p.problem? = none := by
  unfold program
  cases RuleSet.empty.addAll ((d.rules.getD []).map RuleEntry.rule) with
  | error e => simp
  | ok rules => simp only [Program.make_eq_ok_iff, Except.ok.injEq, exists_eq_left']

theorem validated_of_program (h : d.program = .ok p) : p.Validated := by
  obtain ⟨rules, hrules, rfl, hprob⟩ := program_eq_ok_iff.1 h
  exact ⟨⟨_, hrules⟩, Program.make_eq_ok_iff.2 ⟨rfl, hprob⟩⟩

/-- **A description accepted in one order is accepted in every order**, and the programs agree. -/
theorem Alike.program (h : d.Alike e) (hd : d.program = .ok p) : ∃ q, e.program = .ok q ∧ p.Alike q ∧ p.Agree q := by
  have hv := (validated_of_program hd).named
  obtain ⟨rules, hrules, rfl, hprob⟩ := program_eq_ok_iff.1 hd
  have hperm := h.rules.map RuleEntry.rule
  obtain ⟨rfl, hrules'⟩ := RuleSet.addAll_perm hperm hrules
  obtain ⟨-, -, hapart, -⟩ := RuleSet.addAll_eq_ok_iff.1 hrules
  have halike : Program.Alike ⟨d.tensors.getD [], d.output, d.loops.getD [], ⟨(d.rules.getD []).map RuleEntry.rule⟩⟩
      ⟨e.tensors.getD [], e.output, e.loops.getD [], ⟨(e.rules.getD []).map RuleEntry.rule⟩⟩ :=
    ⟨h.output, h.loops, h.tensors, hperm⟩
  have hagree := halike.agree hv hapart
  exact ⟨_, program_eq_ok_iff.2 ⟨_, hrules', rfl, halike.problem?_eq_none hagree hprob⟩, halike, hagree⟩

end Description
end LoopNest
