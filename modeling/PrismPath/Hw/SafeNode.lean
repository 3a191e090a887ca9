import PrismPath.Hotswap.PolicyPack
import PrismPath.Hw.CompileFlow

/-!
This module contains the header a host reads back from a serialized flow, and what the safe node is there.
-/

open Python TableFormat Bytes

namespace PptCompile

open PolicyPack

theorem headerWords_of_serialize {img : FlowImage} {data : List UInt8} (h : serialize img = some data)
    : ∃ maxStack, headerWords data = some (magic :: img.header maxStack) := by
  rcases headerWord_of_serialize h with ⟨maxStack, hword⟩
  refine ⟨maxStack, ?_⟩
  have hwords : (List.range 12).mapM (fun i => u16? data (4 + 2 * i)) = some (img.header maxStack) := by
    have hrange : List.range 12 = [0, 1, 2, 3, 4, 5, 6, 7, 8, 9, 10, 11] := rfl
    rw [hrange]
    simp only [List.mapM_cons, List.mapM_nil, hword 0 _ rfl, hword 1 _ rfl, hword 2 _ rfl, hword 3 _ rfl,
      hword 4 _ rfl, hword 5 _ rfl, hword 6 _ rfl, hword 7 _ rfl, hword 8 _ rfl, hword 9 _ rfl, hword 10 _ rfl,
      hword 11 _ rfl, Option.pure_def, Option.bind_eq_bind, Option.bind_some]
    rfl
  rw [headerWords, magic_of_serialize h, hwords]
  rfl

/-- Every serialized flow has a header that is read, with the flags the flow declares. -/
theorem readPptHeader_of_serialize {img : FlowImage} {data : List UInt8} (h : serialize img = some data)
    : ∃ header, readPptHeader data = .ok header ∧ header.safeNode = img.flags / 2 ^ 8 := by
  rcases headerWords_of_serialize h with ⟨maxStack, hwords⟩
  rw [readPptHeader, hwords]
  exact ⟨_, rfl, rfl⟩

/-- A flow that keeps its state has a safe node, which it names, and no other flow has one. -/
theorem safeNode_of_declarations {flow : Flow} {names : List String} {stateful migrateByName : Bool}
    {safeNode : Option Nat} (h : residentDeclarations flow names = .ok (stateful, migrateByName, safeNode))
    : safeNode = if stateful then names.idxOf? (flow.declared "safe") else none := by
  unfold residentDeclarations at h
  split at h
  . dsimp only at h
    split at h
    . cases h
    . split at h
      . cases h
      next index hindex =>
        split at h
        . cases h
          exact hindex.symm
        . cases h
  . cases h
    rfl

theorem declared_index {flow : Flow} {names : List String} {stateful migrateByName : Bool}
    {safeNode : Option Nat} (h : residentDeclarations flow names = .ok (stateful, migrateByName, safeNode))
    (hstateful : stateful = true)
    : ∃ index, safeNode = some index := by
  unfold residentDeclarations at h
  split at h
  . dsimp only at h
    split at h
    . cases h
    . split at h
      . cases h
      next index _ =>
        split at h
        . cases h
          exact ⟨index, rfl⟩
        . cases h
  . cases h
    cases hstateful

/--
A host reads the safe node back that the flow declares if its index fits the byte it is given, which is zero for node 0
and where none is declared.
-/
theorem safeNode_survives {py : Predicates.Runtime} {isWord : Char → Bool} {maxSteps : Nat} {flow : Flow}
    {img : FlowImage} {data : List UInt8} (hcompile : compileFlow py isWord maxSteps flow = .ok img)
    (hserialize : serialize img = some data)
    : ∃ header, readPptHeader data = .ok header
        ∧ (img.stateful = true → ∃ index, img.names.idxOf? (flow.declared "safe") = some index
          ∧ (index < 2 ^ 8 → header.safeNode = index))
        ∧ (img.stateful = false → header.safeNode = 0) := by
  have hdeclared := (compileFlow_cases hcompile).2
  rcases readPptHeader_of_serialize hserialize with ⟨header, hheader, hsafe⟩
  have hnode := safeNode_of_declarations hdeclared
  rw [flags_div] at hsafe
  refine ⟨header, hheader, fun hstateful => ?_, fun hstateless => ?_⟩
  . rcases declared_index hdeclared hstateful with ⟨index, hindex⟩
    rw [hstateful, if_pos rfl, hindex] at hnode
    refine ⟨index, hnode.symm, fun hlt => ?_⟩
    rw [hsafe, hindex, Option.getD_some, Nat.mod_eq_of_lt hlt]
  . rw [hstateless, if_neg Bool.false_ne_true] at hnode
    rw [hsafe, hnode]
    rfl

/- A flow with one node, which is its safe node, and one with a safe node after it. -/

def noParse : Predicates.Runtime where
  parse := fun _ => none
  str := fun _ => ""
  int := fun _ => none

def restFlow (safe : String) : Flow where
  graph := {
    name := "rest"
    start := "run"
    nodes := [{ name := "run", edges := [⟨"halt", "else"⟩] }, { name := "halt", edges := [] }]
    nodup := by decide
  }
  frontMatter := [("stateful", "true"), ("safe", safe), ("migration", "reset-to")]

def restImage (safeNode : Nat) : FlowImage where
  table := .empty
  maxSteps := 25
  nodes := [("run", [(1, [opTrue])]), ("halt", [])]
  nodeColors := [0, 0]
  stateful := true
  migrateByName := false
  safeNode := some safeNode
  start := 0

theorem safeNode_survives_halt
    : ∃ data header, serialize (restImage 1) = some data ∧ readPptHeader data = .ok header ∧ header.safeNode = 1 := by
  have hcompile : compileFlow noParse Char.isAlphanum 25 (restFlow "halt") = .ok (restImage 1) := by
    with_unfolding_all rfl
  have hdata : ∃ data, serialize (restImage 1) = some data := by
    exact ⟨_, rfl⟩
  rcases hdata with ⟨data, hdata⟩
  rcases safeNode_survives hcompile hdata with ⟨header, hheader, hstateful, _⟩
  rcases hstateful rfl with ⟨index, hindex, hread⟩
  have hone : (restImage 1).names.idxOf? ((restFlow "halt").declared "safe") = some 1 := by with_unfolding_all decide
  cases hindex.symm.trans hone
  exact ⟨data, header, hdata, hheader, hread (by decide)⟩

/-- Node 0 as the safe node is read as none at all. -/
theorem start_undeclared
    : compileFlow noParse Char.isAlphanum 25 (restFlow "run") = .ok (restImage 0)
        ∧ ∃ data header, serialize (restImage 0) = some data ∧ readPptHeader data = .ok header ∧ header.safeNode = 0 := by
  refine ⟨by with_unfolding_all rfl, _, _, rfl, rfl, rfl⟩

end PptCompile
