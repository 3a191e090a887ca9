import PrismPath.Ebpf.SelectorPath
import PrismPath.Hw.CompileCondition
import PrismPath.Hw.CompileFlow

/-!
This module contains where a swap leaves the resident node when both policies were compiled to migrate by name.
-/

open Bytes Evaluator PptImage PptKernel PptCompile TableFormat

namespace PptSelect

/-- The loader read the policy from the bytes of a flow that migrates by name. -/
structure CompiledByName (py : Predicates.Runtime) (isWord : Char → Bool) (maxSteps : Nat) (flow : Flow)
    (img : FlowImage) (policy : Policy) : Prop where
  compiled : compileFlow py isWord maxSteps flow = .ok img
  byName : img.migrateByName = true
  loaded : ∃ data, serialize img = some data ∧ parseImageBuf data = some policy.1

/-- Where a node of another policy belongs: the node that shares its name, or else the safe node. -/
def carried (img : FlowImage) (name : String) : Nat :=
  (img.names.idxOf? name).getD (img.safeNode.getD 0)

def ResidentKept (img img' : FlowImage) (before after : Nat) : Prop :=
  ∃ name, img.names[before]? = some name ∧ after = carried img' name

def safeName? (img : FlowImage) : Option String :=
  img.safeNode.bind fun safeNode => img.names[safeNode]?

/- A swap that nothing comes between. -/

def hotswapActions (hash : List UInt8 → Nat) (j object : Nat) (old new : Policy) : List Action :=
  .swap j object old new :: List.replicate ((populateWrites hash new.1).length + 1) (.put j)

def hotswap (hash : List UInt8 → Nat) (packets : Nat → Packet) (s : System) (j object : Nat) (old new : Policy)
    : System :=
  (hotswapActions hash j object old new).foldl (step hash packets) s

theorem sel_of_writes (hash : List UInt8 → Nat) (packets : Nat → Packet) {j object : Nat} {new : Policy}
    {word : SelState} {cur migrated : Nat} (pending : List Write) {s : System}
    (h : s.swaps j = .writing object new word cur migrated pending)
    : ((List.replicate (pending.length + 1) (Action.put j)).foldl (step hash packets) s).sel
        = { word with cur := migrated, inited := true } := by
  induction pending generalizing s with
  | nil =>
    simp [step, writeNext, h]
  | cons w pending ih =>
    rw [List.length_cons, List.replicate_succ, List.foldl_cons]
    apply ih
    simp [step, writeNext, h, System.setSwap]

theorem resident_hotswap (hash : List UInt8 → Nat) (packets : Nat → Packet) {s : System} {j : Nat}
    (hidle : s.swaps j = .idle) (object : Nat) (old new : Policy)
    : resident new (hotswap hash packets s j object old new).sel = (migrateNode old.1 new.1 (resident old s.sel)).1 := by
  have hwriting
      : (beginSwap hash s j object old new).swaps j =
          .writing object new s.sel (resident old s.sel) (migrateNode old.1 new.1 (resident old s.sel)).1
            (populateWrites hash new.1) := by
    simp [beginSwap, hidle, System.setSwap]
  have hsel := sel_of_writes hash packets (populateWrites hash new.1) hwriting
  unfold hotswap hotswapActions
  rw [List.foldl_cons]
  exact congrArg (resident new) hsel

/- What the loader finds in the bytes of a flow. -/

theorem headerWords?_cases {data : List UInt8} {words : HeaderWords} (h : headerWords? data = some words)
    : u16? data 12 = some words.nodes ∧ u16? data 26 = some words.flags := by
  unfold headerWords? at h
  iterate 5
    rcases Option.bind_eq_some_iff.mp h with ⟨_, _, h⟩
  rcases Option.bind_eq_some_iff.mp h with ⟨nodes, hnodes, h⟩
  iterate 6
    rcases Option.bind_eq_some_iff.mp h with ⟨_, _, h⟩
  rcases Option.bind_eq_some_iff.mp h with ⟨flags, hflags, h⟩
  cases h
  exact ⟨hnodes, hflags⟩

theorem headerWords?_of_serialize {img : FlowImage} {data : List UInt8} (h : serialize img = some data)
    {words : HeaderWords} (hwords : headerWords? data = some words)
    : words.nodes = img.nodes.length ∧ words.flags = img.flags := by
  rcases header_of_serialize h with ⟨hnodes, hflags⟩
  rcases headerWords?_cases hwords with ⟨hnodes', hflags'⟩
  exact ⟨Option.some.inj (hnodes'.symm.trans hnodes), Option.some.inj (hflags'.symm.trans hflags)⟩

section

variable {py : Predicates.Runtime} {isWord : Char → Bool} {maxSteps : Nat} {flow : Flow} {img : FlowImage}
    {policy : Policy}

theorem CompiledByName.read (h : CompiledByName py isWord maxSteps flow img policy)
    : policy.1.nodes.length = img.nodes.length ∧ policy.1.nameHashes = none
        ∧ policy.1.safe = img.safeNode.getD 0 % 2 ^ 8 := by
  rcases h.loaded with ⟨data, hdata, hparse⟩
  rcases parseImageBuf_cases hparse with ⟨words, hwords, _, _, _, hsafe, _, hnames, _, hnodes, _⟩
  rcases headerWords?_of_serialize hdata hwords with ⟨hcount, hflags⟩
  rw [hflags] at hsafe
  refine ⟨hnodes.trans hcount, ?_, hsafe.trans (flags_div img)⟩
  unfold readNames at hnames
  rw [hflags] at hnames
  simp only [flags_mod, Bool.false_eq_true, if_false, Option.some.injEq] at hnames
  exact hnames.symm

/-- The safe node is one of the table's, so that the byte it is given holds it. -/
theorem CompiledByName.safe (h : CompiledByName py isWord maxSteps flow img policy)
    : ∃ safeNode name, img.safeNode = some safeNode ∧ policy.1.safe = safeNode ∧ img.names[safeNode]? = some name
        ∧ img.names.idxOf? name = some safeNode := by
  have hdeclared := (compileFlow_cases h.compiled).2
  rw [h.byName] at hdeclared
  rcases safeNode_of_migrateByName hdeclared with ⟨safeNode, hsafeNode, hindex⟩
  rcases List.idxOf?_eq_some_iff.mp hindex with ⟨hlt, hget, _⟩
  rcases h.read with ⟨hnodes, _, hsafe⟩
  rcases policy.2 with ⟨data, hparse⟩
  have hbound := (accepted_of_parse hparse).nodes
  have hlength : img.names.length = img.nodes.length := List.length_map _
  unfold maxNodes at hbound
  refine ⟨safeNode, flow.declared "safe", hsafeNode, ?_, List.getElem?_eq_some_iff.mpr ⟨hlt, hget⟩, hindex⟩
  rw [hsafe, hsafeNode, Option.getD_some]
  omega

end

theorem resident_kept_iff (hash : List UInt8 → Nat) (packets : Nat → Packet) (py : Predicates.Runtime)
    (isWord : Char → Bool) (maxSteps maxSteps' : Nat) (flow flow' : Flow) (img img' : FlowImage) (old new : Policy)
    (hold : CompiledByName py isWord maxSteps flow img old) (hnew : CompiledByName py isWord maxSteps' flow' img' new)
    (s : System) (j object : Nat) (hidle : s.swaps j = .idle) (hresident : resident old s.sel < old.1.nodes.length)
    : ResidentKept img img' (resident old s.sel) (resident new (hotswap hash packets s j object old new).sel)
        ↔ ∀ name, img.names[resident old s.sel]? = some name → name ∉ img'.names ∨ safeName? img' = some name := by
  rw [resident_hotswap hash packets hidle]
  rcases hnew.safe with ⟨safeNode, safeName, hsafeNode, hsafe, hget, hindex⟩
  -- without node names the second policy has nothing but its safe node to offer
  have hafter : (migrateNode old.1 new.1 (resident old s.sel)).1 = safeNode := by
    unfold migrateNode
    rw [hnew.read.2.1]
    split
    . contradiction
    . exact hsafe
  have hsafeName : safeName? img' = some safeName := by
    rw [safeName?, hsafeNode]
    exact hget
  have hname : ∃ name, img.names[resident old s.sel]? = some name := by
    refine ⟨_, List.getElem?_eq_getElem ?_⟩
    rw [FlowImage.names, List.length_map, ← hold.read.1]
    exact hresident
  rcases hname with ⟨name, hname⟩
  unfold ResidentKept carried
  simp only [hafter, hsafeName, hsafeNode, hname, Option.some.injEq, exists_eq_left', forall_eq', Option.getD_some]
  cases hcarried : img'.names.idxOf? name with
  | none =>
    rw [List.idxOf?_eq_none_iff] at hcarried
    simp [hcarried]
  | some index =>
    have hmem : name ∈ img'.names := List.isSome_idxOf?.mp (by rw [hcarried]; rfl)
    simp only [hmem, not_true_eq_false, false_or, Option.getD_some]
    constructor
    . intro heq
      subst heq
      rcases List.idxOf?_eq_some_iff.mp hcarried with ⟨hlt, hat, _⟩
      rw [List.getElem?_eq_getElem hlt, hat] at hget
      exact (Option.some.inj hget).symm
    . intro heq
      subst heq
      exact Option.some.inj (hindex.symm.trans hcarried)

/- Two flows. -/

def idleNode (name target : String) : Parser.Node where
  name
  edges := [{ target, condition := "always" }]

/-- Two nodes that lead to each other; the first is the start and the safe one. -/
def patrol : Flow where
  graph := {
    name := "patrol", start := "normal"
    nodes := [idleNode "normal" "lockdown", idleNode "lockdown" "normal"]
    nodup := by decide
  }
  frontMatter := [("stateful", "true"), ("safe", "normal"), ("migration", "by-name")]

def patrolImage : FlowImage :=
  ((compileFlow speedPy (fun _ => false) 25 patrol).toOption.get (by with_unfolding_all decide))

def patrolBytes : List UInt8 :=
  (serialize patrolImage).get (by with_unfolding_all decide)

def patrolPolicy : Policy :=
  ⟨(parseImageBuf patrolBytes).get (by with_unfolding_all decide), _, (Option.some_get _).symm⟩

theorem patrol_compiled
    : CompiledByName speedPy (fun _ => false) 25 patrol patrolImage patrolPolicy where
  compiled := by
    have himg : (compileFlow speedPy (fun _ => false) 25 patrol).toOption = some patrolImage :=
      (Option.some_get _).symm
    cases hflow : compileFlow speedPy (fun _ => false) 25 patrol with
    | error error =>
      rw [hflow] at himg
      cases himg
    | ok img =>
      rw [hflow] at himg
      rw [Option.some.inj himg]
  byName := by with_unfolding_all decide
  loaded := ⟨patrolBytes, (Option.some_get _).symm, (Option.some_get _).symm⟩

/-- On patrol, at the given node. -/
def patrolling (node : Nat) : System :=
  { seeded patrolPolicy with sel := { cur := node, inited := true, gen := 0 } }

theorem lockdown_not_kept
    : ¬ ∀ (hash : List UInt8 → Nat) (packets : Nat → Packet) (py : Predicates.Runtime) (isWord : Char → Bool)
        (maxSteps maxSteps' : Nat) (flow flow' : Flow) (img img' : FlowImage) (old new : Policy),
        CompiledByName py isWord maxSteps flow img old → CompiledByName py isWord maxSteps' flow' img' new →
        ∀ (s : System) (j object : Nat), s.swaps j = .idle → resident old s.sel < old.1.nodes.length →
        ResidentKept img img' (resident old s.sel) (resident new (hotswap hash packets s j object old new).sel) := by
  intro hclaim
  have hkept := hclaim (fun _ => 0) emptyPacket speedPy (fun _ => false) 25 25 patrol patrol patrolImage patrolImage
    patrolPolicy patrolPolicy patrol_compiled patrol_compiled (patrolling 1) 0 0 rfl (by with_unfolding_all decide)
  rcases hkept with ⟨name, hname, hafter⟩
  have hlockdown : patrolImage.names[1]? = some "lockdown" := by with_unfolding_all decide
  have hcarried : carried patrolImage "lockdown" = 1 := by with_unfolding_all decide
  have hreset
      : resident patrolPolicy (hotswap (fun _ => 0) emptyPacket (patrolling 1) 0 0 patrolPolicy patrolPolicy).sel = 0 := by
    with_unfolding_all decide
  cases hlockdown.symm.trans hname
  rw [hreset, hcarried] at hafter
  contradiction

theorem normal_kept
    : ResidentKept patrolImage patrolImage (resident patrolPolicy (patrolling 0).sel)
        (resident patrolPolicy (hotswap (fun _ => 0) emptyPacket (patrolling 0) 0 0 patrolPolicy patrolPolicy).sel) := by
  refine (resident_kept_iff (fun _ => 0) emptyPacket speedPy (fun _ => false) 25 25 patrol patrol patrolImage
    patrolImage patrolPolicy patrolPolicy patrol_compiled patrol_compiled (patrolling 0) 0 0 rfl
    (by with_unfolding_all decide)).mpr fun name hname => .inr ?_
  have hnormal : patrolImage.names[0]? = safeName? patrolImage := by with_unfolding_all decide
  exact hnormal.symm.trans hname

end PptSelect
