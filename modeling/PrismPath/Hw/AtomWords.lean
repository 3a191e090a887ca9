import PrismPath.Hw.CompileFlow
import PrismPath.Kernel.LevelMLemmas
import PrismPath.Lib.Process

/-!
This module contains what the words of a compiled program are, and that no word which names an atom is an opcode: a
program with such a word does not leave one result, so its image is not serialized.
-/

open Python TableFormat

namespace PptCompile

/- The depth a program leaves. -/

def stackEffect (word : Nat) : ℤ :=
  if word < 0x8000 ∨ word = opTrue ∨ word = opFalse then 1
  else if word = opAnd ∨ word = opOr then -1
  else 0

def finalDepth (prog : List Nat) : ℤ :=
  (prog.map stackEffect).sum

theorem finalDepth_append (prog prog' : List Nat)
    : finalDepth (prog ++ prog') = finalDepth prog + finalDepth prog' := by
  rw [finalDepth, List.map_append, List.sum_append]
  rfl

theorem finalDepth_singleton (word : Nat)
    : finalDepth [word] = stackEffect word := by
  rw [finalDepth, List.map_singleton, List.sum_singleton]

theorem fst_foldl_depth (prog : List Nat) (depth peak : ℤ)
    : (prog.foldl (fun (depth, peak) word =>
        let depth : ℤ :=
          if word < 0x8000 ∨ word = opTrue ∨ word = opFalse then depth + 1
          else if word = opAnd ∨ word = opOr then depth - 1
          else depth
        (depth, max peak depth)) (depth, peak)).1 = depth + finalDepth prog := by
  induction prog generalizing depth peak with
  | nil => simp [finalDepth]
  | cons word prog ih =>
    rw [List.foldl_cons, ih, ← List.singleton_append, finalDepth_append, finalDepth_singleton, stackEffect]
    split
    . omega
    . split <;> omega

/-- A program that passes the serializer leaves one result. -/
theorem finalDepth_of_stackDepth {prog : List Nat} {peak : ℤ} (h : stackDepth prog = some peak)
    : finalDepth prog = 1 := by
  unfold stackDepth at h
  dsimp only at h
  split at h
  . next hdepth =>
    rw [fst_foldl_depth, Int.zero_add] at hdepth
    exact hdepth
  . cases h

theorem stackEffect_le_one (word : Nat)
    : stackEffect word ≤ 1 := by
  unfold stackEffect
  split
  . omega
  . split <;> omega

/- What a step of the compiler adds. -/

/--
The atoms grow from one number to another while the program is emitted, whose words are opcodes or name one of them. It
leaves at most the depth, and less if the atom whose index is the first opcode comes in.
-/
structure Emits (before after : Nat) (prog : List Nat) (depth : ℤ) : Prop where
  grows : before ≤ after
  words : ∀ word ∈ prog, word ∈ progOpcodes ∨ word < after
  depth_le : finalDepth prog ≤ depth
  depth_lt : before ≤ opNot → opNot < after → finalDepth prog < depth

theorem Emits.nil (n : Nat)
    : Emits n n [] 0 := by
  refine ⟨Nat.le_refl n, by simp, Int.le_refl _, fun hle hlt => ?_⟩
  omega

theorem Emits.opcode (n : Nat) {op : Nat} (h : op ∈ progOpcodes)
    : Emits n n [op] (stackEffect op) := by
  refine ⟨Nat.le_refl n, by simp [h], Int.le_of_eq (finalDepth_singleton op), fun hle hlt => ?_⟩
  omega

theorem Emits.mono {before after : Nat} {prog : List Nat} {depth depth' : ℤ} (h : Emits before after prog depth)
    (hle : depth ≤ depth')
    : Emits before after prog depth' := by
  refine ⟨h.grows, h.words, Int.le_trans h.depth_le hle, fun hbefore hafter => ?_⟩
  have hlt := h.depth_lt hbefore hafter
  omega

theorem Emits.append {before middle after : Nat} {prog prog' : List Nat} {depth depth' : ℤ}
    (h : Emits before middle prog depth) (h' : Emits middle after prog' depth')
    : Emits before after (prog ++ prog') (depth + depth') := by
  have hle := h.depth_le
  have hle' := h'.depth_le
  refine ⟨Nat.le_trans h.grows h'.grows, ?_, ?_, ?_⟩
  . intro word hword
    rcases List.mem_append.mp hword with hword | hword
    . exact (h.words word hword).imp_right fun hlt => Nat.lt_of_lt_of_le hlt h'.grows
    . exact h'.words word hword
  . rw [finalDepth_append]
    omega
  . intro hbefore hafter
    rw [finalDepth_append]
    -- the atom comes in with the first part or with the second
    by_cases hmiddle : opNot < middle
    . have hlt := h.depth_lt hbefore hmiddle
      omega
    . have hlt := h'.depth_lt (by omega) hafter
      omega

theorem emits_atom {field op ty : Nat} {val : ℤ} {img img' : TableImage} {index : Nat}
    (h : atom field op ty val img = .ok (index, img'))
    : Emits img.atoms.length img'.atoms.length [index] 1 := by
  have hle := stackEffect_le_one index
  have hatom : atom field op ty val img = .ok ((pooled img.atoms ⟨field, op, ty, val⟩).1,
      { img with atoms := (pooled img.atoms ⟨field, op, ty, val⟩).2 }) := rfl
  rw [hatom] at h
  cases h
  revert hle
  unfold pooled
  split
  . next hmem =>
    intro hle
    have hindex : img.atoms.idxOf (⟨field, op, ty, val⟩ : Atom) < img.atoms.length := by
      apply List.idxOf_lt_length_of_mem
      simpa using hmem
    refine ⟨Nat.le_refl _, by simp [hindex], by rwa [finalDepth_singleton], fun hbefore hafter => ?_⟩
    exact absurd hafter (Nat.not_lt.mpr hbefore)
  . intro hle
    refine ⟨by simp, by simp, by rwa [finalDepth_singleton], fun hbefore hafter => ?_⟩
    simp only [List.length_append, List.length_singleton] at hafter
    -- the new atom is the one whose index is read as a negation
    have hindex : img.atoms.length = opNot := by omega
    rw [finalDepth_singleton]
    dsimp only
    rw [hindex]
    decide

theorem atoms_of_field {name : String} {img img' : TableImage} {index : Nat} (h : field name img = .ok (index, img'))
    : img'.atoms = img.atoms := by
  cases h
  rfl

theorem atoms_of_encodeScalar {v : Value} {img img' : TableImage} {r : Nat × ℤ}
    (h : encodeScalar v img = .ok (r, img'))
    : img'.atoms = img.atoms := by
  cases v with
  | none | bool b =>
    cases h
    rfl
  | int n =>
    rw [encodeScalar] at h
    split at h
    . cases h
      rfl
    . cases h
  | str s =>
    rcases StateT.bind_eq_ok.mp h with ⟨index, img'', hintern, h⟩
    cases h
    cases hintern
    rfl
  | _ => cases h

/- Conditions. -/

theorem img_of_valueOf {e : Expr} {img img' : TableImage} {v : Value} (h : valueOf e img = .ok (v, img'))
    : img' = img := by
  unfold valueOf at h
  split at h
  . cases h
    rfl
  . cases h

theorem img_of_idOf {e : Expr} {img img' : TableImage} {id : String} (h : idOf e img = .ok (id, img'))
    : img' = img := by
  unfold idOf at h
  split at h
  . cases h
    rfl
  . cases h

theorem img_of_eltsOf {e : Expr} {img img' : TableImage} {es : List Expr} (h : eltsOf e img = .ok (es, img'))
    : img' = img := by
  unfold eltsOf at h
  split at h
  . cases h
    rfl
  . cases h
    rfl
  . cases h

theorem emits_memberAtom {fidx : Nat} {element : Expr} {img img' : TableImage} {word : Nat}
    (h : memberAtom fidx element img = .ok (word, img'))
    : Emits img.atoms.length img'.atoms.length [word] 1 := by
  rcases StateT.bind_eq_ok.mp h with ⟨v, img₁, hvalue, h⟩
  rcases StateT.bind_eq_ok.mp h with ⟨⟨ty, val⟩, img₂, hscalar, h⟩
  have hemits := emits_atom h
  rw [atoms_of_encodeScalar hscalar, img_of_valueOf hvalue] at hemits
  exact hemits

theorem emits_memberRest {fidx : Nat} {elements : List Expr} {img img' : TableImage} {prog : List Nat}
    (h : memberRest fidx elements img = .ok (prog, img'))
    : Emits img.atoms.length img'.atoms.length prog 0 := by
  induction elements generalizing img prog with
  | nil =>
    cases h
    exact .nil _
  | cons element elements ih =>
    rw [memberRest] at h
    rcases StateT.bind_eq_ok.mp h with ⟨word, img₁, hword, h⟩
    rcases StateT.bind_eq_ok.mp h with ⟨rest, img₂, hrest, h⟩
    cases h
    -- an atom, and the disjunction of it with what came before
    have hor := @Emits.opcode img₁.atoms.length opOr (by decide)
    exact ((emits_memberAtom hword).append (hor.append (ih hrest))).mono (by decide)

theorem emits_memberProg {fidx : Nat} {elements : List Expr} {img img' : TableImage} {prog : List Nat}
    (h : memberProg fidx elements img = .ok (prog, img'))
    : Emits img.atoms.length img'.atoms.length prog 1 := by
  cases elements with
  | nil =>
    cases h
    exact (Emits.opcode _ (by decide)).mono (by decide)
  | cons element elements =>
    rw [memberProg] at h
    rcases StateT.bind_eq_ok.mp h with ⟨word, img₁, hword, h⟩
    rcases StateT.bind_eq_ok.mp h with ⟨rest, img₂, hrest, h⟩
    cases h
    exact ((emits_memberAtom hword).append (emits_memberRest hrest)).mono (by decide)

/-- The atom that compares a field with a constant. -/
theorem emits_scalarAtom {fidx opc : Nat} {e : Expr} {img img' : TableImage} {prog : List Nat}
    (h : (do
      let (ty, val) ← encodeScalar (← valueOf e)
      return [← atom fidx opc ty val] : Build (List Nat)) img = .ok (prog, img'))
    : Emits img.atoms.length img'.atoms.length prog 1 := by
  rcases StateT.bind_eq_ok.mp h with ⟨v, img₁, hvalue, h⟩
  rcases StateT.bind_eq_ok.mp h with ⟨⟨ty, val⟩, img₂, hscalar, h⟩
  rcases StateT.bind_eq_ok.mp h with ⟨word, img₃, hatom, h⟩
  cases h
  have hemits := emits_atom hatom
  rw [atoms_of_encodeScalar hscalar, img_of_valueOf hvalue] at hemits
  exact hemits

theorem emits_compareProg {left : Expr} {op : CmpOp} {right : Expr} {img img' : TableImage} {prog : List Nat}
    (h : compareProg left op right img = .ok (prog, img'))
    : Emits img.atoms.length img'.atoms.length prog 1 := by
  unfold compareProg at h
  split at h
  . rcases StateT.bind_eq_ok.mp h with ⟨id, img₁, hid, h⟩
    rcases StateT.bind_eq_ok.mp h with ⟨fidx, img₂, hfield, h⟩
    rcases StateT.bind_eq_ok.mp h with ⟨elts, img₃, helts, h⟩
    rcases StateT.bind_eq_ok.mp h with ⟨members, img₄, hmembers, h⟩
    cases h
    have hemits := emits_memberProg hmembers
    rw [img_of_eltsOf helts, atoms_of_field hfield, img_of_idOf hid] at hemits
    split
    . exact (hemits.append (@Emits.opcode _ opNot (by decide))).mono (by decide)
    . exact hemits
  . cases hop : astOp op with
    | none =>
      rw [hop] at h
      cases h
    | some opc =>
      rw [hop] at h
      cases left with
      | name id =>
        rcases StateT.bind_eq_ok.mp h with ⟨fidx, img₁, hfield, h⟩
        have hemits := emits_scalarAtom h
        rw [atoms_of_field hfield] at hemits
        exact hemits
      | _ =>
        rcases StateT.bind_eq_ok.mp h with ⟨id, img₁, hid, h⟩
        rcases StateT.bind_eq_ok.mp h with ⟨fidx, img₂, hfield, h⟩
        have hemits := emits_scalarAtom h
        rw [atoms_of_field hfield, img_of_idOf hid] at hemits
        exact hemits

theorem emits_progOperands {opc : Nat} (hopc : opc ∈ progOpcodes) (heffect : stackEffect opc = -1) {es : List Expr}
    (ih : ∀ e ∈ es, ∀ {img img' : TableImage} {prog : List Nat}, progExpr e img = .ok (prog, img') →
      Emits img.atoms.length img'.atoms.length prog 1)
    {img img' : TableImage} {prog : List Nat} (h : progOperands opc es img = .ok (prog, img'))
    : Emits img.atoms.length img'.atoms.length prog 0 := by
  induction es generalizing img prog with
  | nil =>
    rw [progOperands] at h
    cases h
    exact .nil _
  | cons e es ihList =>
    rw [progOperands] at h
    rcases StateT.bind_eq_ok.mp h with ⟨first, img₁, hfirst, h⟩
    rcases StateT.bind_eq_ok.mp h with ⟨rest, img₂, hrest, h⟩
    cases h
    have hoperands := ihList (fun e he => ih e (List.mem_cons_of_mem _ he)) hrest
    have hop := Emits.opcode img₁.atoms.length hopc
    rw [heffect] at hop
    exact ((ih e (List.mem_cons_self ..) hfirst).append (hop.append hoperands)).mono (by decide)

/-- By induction on the expression: a program is its operands' programs with the opcodes between and behind. -/
theorem emits_progExpr (e : Expr) {img img' : TableImage} {prog : List Nat} (h : progExpr e img = .ok (prog, img'))
    : Emits img.atoms.length img'.atoms.length prog 1 := by
  induction e using Expr.induct generalizing img img' prog with
  | name id =>
    rw [progExpr] at h
    rcases StateT.bind_eq_ok.mp h with ⟨fidx, img₁, hfield, h⟩
    rcases StateT.bind_eq_ok.mp h with ⟨word, img₂, hatom, h⟩
    cases h
    have hemits := emits_atom hatom
    rw [atoms_of_field hfield] at hemits
    exact hemits
  | unaryOp op e ih =>
    cases op with
    | not =>
      rw [progExpr] at h
      rcases StateT.bind_eq_ok.mp h with ⟨operand, img₁, hoperand, h⟩
      cases h
      exact ((ih hoperand).append (@Emits.opcode _ opNot (by decide))).mono (by decide)
    | _ =>
      rw [progExpr] at h <;> cases h
  | boolOp op es ih =>
    cases es with
    | nil =>
      rw [progExpr] at h
      cases h
      exact (Emits.nil _).mono (by decide)
    | cons e es =>
      rw [progExpr] at h
      rcases StateT.bind_eq_ok.mp h with ⟨first, img₁, hfirst, h⟩
      rcases StateT.bind_eq_ok.mp h with ⟨rest, img₂, hrest, h⟩
      cases h
      have hopc : opcodeOf op ∈ progOpcodes ∧ stackEffect (opcodeOf op) = -1 := by
        cases op <;> decide
      have hoperands := emits_progOperands hopc.1 hopc.2 (fun e he => ih e (List.mem_cons_of_mem _ he)) hrest
      exact ((ih e (List.mem_cons_self ..) hfirst).append hoperands).mono (by decide)
  | compare left rest =>
    cases rest with
    | nil =>
      rw [progExpr] at h <;> cases h
    | cons pair rest =>
      rcases pair with ⟨op, right⟩
      rw [progExpr] at h
      exact emits_compareProg h
  | _ =>
    rw [progExpr] at h <;> cases h

theorem emits_compileCondition {py : Predicates.Runtime} {cond : String} {img img' : TableImage} {prog : List Nat}
    (h : compileCondition py cond img = .ok (prog, img'))
    : Emits img.atoms.length img'.atoms.length prog 1 := by
  unfold compileCondition at h
  split at h
  . cases h
  . dsimp only at h
    split at h
    . cases h
      exact (Emits.opcode _ (by decide)).mono (by decide)
    . split at h
      . cases h
        exact (Emits.opcode _ (by decide)).mono (by decide)
      . split at h
        . cases h
        . cases hparse : py.parse (Predicates.exprOf cond) with
          | none =>
            rw [hparse] at h
            cases h
          | some body =>
            rw [hparse] at h
            dsimp only at h
            cases hclass : LevelM.classify (LevelM.desugarChains (Predicates.foldUnarySigns body)) with
            | some reason =>
              rw [hclass] at h
              cases h
            | none =>
              rw [hclass] at h
              exact emits_progExpr _ h

/- Flows. -/

/-- What `Emits` says of one program, of the programs of a list of edges. -/
structure EmitsAll (before after : Nat) (edges : List (Nat × List Nat)) : Prop where
  grows : before ≤ after
  words : ∀ edge ∈ edges, ∀ word ∈ edge.2, word ∈ progOpcodes ∨ word < after
  depth_lt : before ≤ opNot → opNot < after → ∃ edge ∈ edges, finalDepth edge.2 < 1

theorem EmitsAll.nil (n : Nat)
    : EmitsAll n n [] := by
  refine ⟨Nat.le_refl n, by simp, fun hbefore hafter => ?_⟩
  exact absurd hafter (Nat.not_lt.mpr hbefore)

theorem Emits.all {before after target : Nat} {prog : List Nat} (h : Emits before after prog 1)
    : EmitsAll before after [(target, prog)] := by
  refine ⟨h.grows, by simpa using h.words, fun hbefore hafter => ?_⟩
  exact ⟨_, List.mem_singleton.mpr rfl, h.depth_lt hbefore hafter⟩

theorem EmitsAll.append {before middle after : Nat} {edges edges' : List (Nat × List Nat)}
    (h : EmitsAll before middle edges) (h' : EmitsAll middle after edges')
    : EmitsAll before after (edges ++ edges') := by
  refine ⟨Nat.le_trans h.grows h'.grows, ?_, ?_⟩
  . intro edge hedge word hword
    rcases List.mem_append.mp hedge with hedge | hedge
    . exact (h.words edge hedge word hword).imp_right fun hlt => Nat.lt_of_lt_of_le hlt h'.grows
    . exact h'.words edge hedge word hword
  . intro hbefore hafter
    by_cases hmiddle : opNot < middle
    . rcases h.depth_lt hbefore hmiddle with ⟨edge, hedge, hlt⟩
      exact ⟨edge, List.mem_append_left _ hedge, hlt⟩
    . rcases h'.depth_lt (by omega) hafter with ⟨edge, hedge, hlt⟩
      exact ⟨edge, List.mem_append_right _ hedge, hlt⟩

theorem liftCondition_ok {α : Type} {build : Build α} {img : TableImage} {r : α × TableImage}
    (h : liftCondition build img = .ok r)
    : build img = .ok r := by
  unfold liftCondition at h
  split at h
  . next hbuild =>
    cases h
    exact hbuild
  . cases h

theorem emits_compileEdges {py : Predicates.Runtime} {names : List String} {edges : List Parser.Edge}
    {img img' : TableImage} {compiled : List (Nat × List Nat)}
    (h : compileEdges py names edges img = .ok (compiled, img'))
    : EmitsAll img.atoms.length img'.atoms.length compiled := by
  induction edges generalizing img compiled with
  | nil =>
    cases h
    exact .nil _
  | cons edge edges ih =>
    rw [compileEdges] at h
    split at h
    . exact ih h
    . split at h
      . cases h
      . cases htarget : names.idxOf? edge.target with
        | none =>
          rw [htarget] at h
          cases h
        | some target =>
          rw [htarget] at h
          rcases StateT.bind_eq_ok.mp h with ⟨prog, img₁, hprog, h⟩
          rcases StateT.bind_eq_ok.mp h with ⟨rest, img₂, hrest, h⟩
          cases h
          exact (emits_compileCondition (liftCondition_ok hprog)).all.append (ih hrest)

theorem emits_compileNodes {py : Predicates.Runtime} {names : List String} {nodes : List Parser.Node}
    {img img' : TableImage} {compiled : List (String × List (Nat × List Nat))}
    (h : compileNodes py names nodes img = .ok (compiled, img'))
    : EmitsAll img.atoms.length img'.atoms.length (compiled.flatMap Prod.snd) := by
  induction nodes generalizing img compiled with
  | nil =>
    cases h
    exact .nil _
  | cons node nodes ih =>
    rw [compileNodes] at h
    rcases StateT.bind_eq_ok.mp h with ⟨edges, img₁, hedges, h⟩
    rcases StateT.bind_eq_ok.mp h with ⟨rest, img₂, hrest, h⟩
    cases h
    exact (emits_compileEdges hedges).append (ih hrest)

theorem emits_compileFlow {py : Predicates.Runtime} {isWord : Char → Bool} {maxSteps : Nat} {flow : Flow}
    {img : FlowImage} (h : compileFlow py isWord maxSteps flow = .ok img)
    : EmitsAll 0 img.table.atoms.length img.edges := by
  unfold compileFlow at h
  dsimp only at h
  split at h
  . cases h
  rcases Except.bind_eq_ok.mp h with ⟨⟨compiled, table⟩, hcompiled, h⟩
  rcases Except.bind_eq_ok.mp h with ⟨_, _, h⟩
  cases h
  exact emits_compileNodes hcompiled

theorem stackDepth_of_mapM {edges : List (Nat × List Nat)} {depths : List ℤ}
    (h : (edges.mapM fun edge => stackDepth edge.2) = some depths) {edge : Nat × List Nat} (hedge : edge ∈ edges)
    : ∃ peak, stackDepth edge.2 = some peak := by
  induction edges generalizing depths with
  | nil => cases hedge
  | cons head edges ih =>
    rw [List.mapM_cons] at h
    rcases Option.bind_eq_some_iff.mp h with ⟨peak, hpeak, h⟩
    rcases Option.bind_eq_some_iff.mp h with ⟨peaks, hpeaks, _⟩
    rcases List.mem_cons.mp hedge with rfl | hedge
    . exact ⟨peak, hpeak⟩
    . exact ih hpeaks hedge

/-- The indices of the atoms of a serialized image are below the first opcode. -/
theorem atoms_le_opNot {py : Predicates.Runtime} {isWord : Char → Bool} {maxSteps : Nat} {flow : Flow}
    {img : FlowImage} {data : List UInt8} (hcompile : compileFlow py isWord maxSteps flow = .ok img)
    (hserialize : serialize img = some data)
    : img.table.atoms.length ≤ opNot := by
  by_contra hlt
  rcases serialize_cases hserialize with ⟨depths, _, _, _, _, _, _, hdepths, _⟩
  rcases (emits_compileFlow hcompile).depth_lt (Nat.zero_le _) (Nat.not_le.mp hlt) with ⟨edge, hedge, hdepth⟩
  rcases stackDepth_of_mapM hdepths hedge with ⟨peak, hpeak⟩
  rw [finalDepth_of_stackDepth hpeak] at hdepth
  exact absurd hdepth (Int.lt_irrefl 1)

end PptCompile
