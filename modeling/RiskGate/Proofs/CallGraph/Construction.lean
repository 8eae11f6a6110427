import RiskGate.Proofs.CallGraph.Calls
import RiskGate.Proofs.CallGraph.Cycles
import RiskGate.Proofs.Count

/-! # What a constructed graph consists of

Declarations come first and calls after them, yet which nodes and edges there are does not depend on
the order of contracts, functions and call sites; only the error does.

* `Describes`, nodes, placeholders, weights and edges of a graph in terms of the contracts alone;
* `ofContracts_eq`: the first call site without a function name decides, and otherwise every call is
  added to the declared functions;
* `ofContracts_declarative`: construction gives the graph that the contracts describe.
-/

namespace RiskGate

/-- The call sites of functions of concrete contracts with the names of their functions, contract by
contract and function by function. -/
def sitesInOrder (contracts : List Contract) : List (String × CallSite) :=
  (concrete contracts).flatMap fun c =>
    c.functions.flatMap fun f => f.callSites.map fun site => (c.nodeName f, site)

/-- The target of the call site is known, and has no function name. -/
def CallSite.Unnamed (site : CallSite) : Prop :=
  ∃ target, site.target = some target ∧ target.function = ""

theorem CallSite.any_target_iff {site : CallSite} :
    site.target.any (·.function = "") = true ↔ site.Unnamed := by
  simp [Unnamed, Option.any_eq_true]

instance (site : CallSite) : Decidable site.Unnamed := decidable_of_iff _ site.any_target_iff

/-- Some concrete contract declares a function of that name. -/
def Declares (contracts : List Contract) (id : String) : Prop :=
  ∃ c ∈ contracts, c.isConcrete = true ∧ ∃ f ∈ c.functions, c.nodeName f = id

/-- A function of that name in a concrete contract has a call site with the target. -/
def Targets (contracts : List Contract) (caller : String) (target : FunctionName) : Prop :=
  ∃ c ∈ contracts, c.isConcrete = true ∧ ∃ f ∈ c.functions, c.nodeName f = caller ∧
    ∃ site ∈ f.callSites, site.target = some target

/-- The functions of concrete contracts with that name. -/
def functionsNamed (contracts : List Contract) (id : String) : List ContractFunction :=
  (concrete contracts).flatMap fun c => c.functions.filter fun f => c.nodeName f = id

theorem mem_concrete {contracts : List Contract} {c : Contract} :
    c ∈ concrete contracts ↔ c ∈ contracts ∧ c.isConcrete = true := List.mem_filter

theorem declares_iff {contracts : List Contract} {id : String} :
    Declares contracts id ↔ ∃ entry ∈ declaredFunctions contracts, entry.1 = id := by
  simp only [Declares, declaredFunctions, List.mem_flatMap, List.mem_map, mem_concrete]
  constructor
  · rintro ⟨c, hc, hconcrete, f, hf, hid⟩
    exact ⟨_, ⟨c, ⟨hc, hconcrete⟩, f, hf, rfl⟩, hid⟩
  · rintro ⟨entry, ⟨c, ⟨hc, hconcrete⟩, f, hf, rfl⟩, hid⟩
    exact ⟨c, hc, hconcrete, f, hf, hid⟩

theorem targets_iff {contracts : List Contract} {caller : String} {target : FunctionName} :
    Targets contracts caller target ↔ (caller, target) ∈ resolvedCalls contracts := by
  simp only [Targets, resolvedCalls, declaredFunctions, List.mem_flatMap, List.mem_map,
    List.mem_filterMap, mem_concrete]
  constructor
  · rintro ⟨c, hc, hconcrete, f, hf, rfl, site, hsite, htarget⟩
    exact ⟨_, ⟨c, ⟨hc, hconcrete⟩, f, hf, rfl⟩, target, ⟨site, hsite, htarget⟩, rfl⟩
  · rintro ⟨entry, ⟨c, ⟨hc, hconcrete⟩, f, hf, rfl⟩, other, ⟨site, hsite, htarget⟩, heq⟩
    obtain ⟨rfl, rfl⟩ := Prod.mk.inj heq
    exact ⟨c, hc, hconcrete, f, hf, rfl, site, hsite, htarget⟩

instance (contracts : List Contract) (id : String) : Decidable (Declares contracts id) :=
  decidable_of_iff _ declares_iff.symm

instance (contracts : List Contract) (caller : String) (target : FunctionName) :
    Decidable (Targets contracts caller target) :=
  decidable_of_iff _ targets_iff.symm

theorem functionsNamed_eq (contracts : List Contract) (id : String) :
    functionsNamed contracts id =
      ((declaredFunctions contracts).filter (·.1 = id)).map (·.2) := by
  simp only [functionsNamed, declaredFunctions, List.filter_flatMap, List.map_flatMap,
    List.filter_map, List.map_map]
  congr
  funext c
  exact (List.map_id _).symm

/-- The known targets are those of the call sites, in order. -/
theorem resolvedCalls_eq (contracts : List Contract) :
    resolvedCalls contracts = (sitesInOrder contracts).filterMap fun (caller, site) =>
      site.target.map fun target => (caller, target) := by
  simp only [resolvedCalls, declaredFunctions, sitesInOrder, List.filterMap_flatMap,
    List.flatMap_assoc, List.flatMap_map, List.filterMap_map, List.map_filterMap]
  rfl

namespace CallGraph

/-! ## Nodes after a step -/

theorem getElem?_declare (g : CallGraph) (id v : String) (weight : Count) :
    (g.declare id weight).nodes[v]? =
      if id = v then some { externalCallWeight := g.weight id + weight, placeholder := false }
      else g.nodes[v]? := by
  simp only [declare, Std.ExtTreeMap.getElem?_insert, Std.compare_eq_iff_eq]

theorem getElem?_addCall (g : CallGraph) (caller callee v : String) :
    (g.addCall caller callee).nodes[v]? =
      (g.nodes[v]?).or
        (if callee = v then some { externalCallWeight := 0, placeholder := true } else none) := by
  simp only [addCall, Std.ExtTreeMap.getElem?_insertIfNew, Std.compare_eq_iff_eq]
  cases hv : g.nodes[v]? with
  | some node =>
      have hmem : v ∈ g.nodes := Std.ExtTreeMap.mem_iff_isSome_getElem?.mpr (by simp [hv])
      simp only [Option.some_or]
      rw [if_neg]
      rintro ⟨rfl, hnot⟩
      exact hnot hmem
  | none =>
      have hnot : v ∉ g.nodes := by simp [Std.ExtTreeMap.mem_iff_isSome_getElem?, hv]
      by_cases hcallee : callee = v
      · subst hcallee
        simp [hnot]
      · simp [hcallee]

theorem contains_iff {g : CallGraph} {v : String} :
    g.contains v = true ↔ ∃ node, g.nodes[v]? = some node := by
  rw [contains, Std.ExtTreeMap.contains_eq_isSome_getElem?, Option.isSome_iff_exists]

/-! ## Declarations -/

/-- A name is a node once a function of that name is declared. -/
theorem contains_ofFunctions {functions : List (String × ContractFunction)} {id : String} :
    (ofFunctions functions).contains id = true ↔ ∃ entry ∈ functions, entry.1 = id := by
  unfold ofFunctions
  induction functions using List.reverseRecOn with
  | nil => simp [contains]
  | append_singleton functions entry ih =>
      rw [List.foldl_append, List.foldl_cons, List.foldl_nil, contains_declare, ih]
      simp [or_comm]

theorem placeholder_ofFunctions {functions : List (String × ContractFunction)} {id : String}
    {node : CallNode} (h : (ofFunctions functions).nodes[id]? = some node) :
    node.placeholder = false := by
  unfold ofFunctions at h
  induction functions using List.reverseRecOn with
  | nil => simp at h
  | append_singleton functions entry ih =>
      rw [List.foldl_append, List.foldl_cons, List.foldl_nil, getElem?_declare] at h
      split at h
      · cases h
        rfl
      · exact ih h

/-- The weights of functions of one name add up. -/
theorem weight_ofFunctions (functions : List (String × ContractFunction)) (id : String) :
    (ofFunctions functions).weight id =
      Count.sum ((functions.filter (·.1 = id)).map (·.2.callWeight)) := by
  unfold ofFunctions
  induction functions using List.reverseRecOn with
  | nil => simp [weight, Count.sum]
  | append_singleton functions entry ih =>
      rw [List.foldl_append, List.foldl_cons, List.foldl_nil, weight, getElem?_declare]
      by_cases hid : entry.1 = id
      · subst hid
        simp only [if_pos, ih, Count.sum, List.filter_append, List.map_append, List.foldl_append]
        simp
      · simp only [if_neg hid, List.filter_append, List.map_append]
        rw [← weight, ih]
        simp [hid]

/-! ## Calls -/

/-- The graph with all the calls. -/
def addCalls (g : CallGraph) (calls : List (String × FunctionName)) : CallGraph :=
  calls.foldl (fun g call => g.addCall call.1 call.2.nodeName) g

/-- The first call to a target without a function name decides. -/
theorem ofContracts_eq (contracts : List Contract) :
    ofContracts contracts =
      match (resolvedCalls contracts).find? (·.2.function = "") with
      | some call => .error (.unnamedTarget call.1)
      | none =>
        .ok ((ofFunctions (declaredFunctions contracts)).addCalls (resolvedCalls contracts)) := by
  have hfold : ∀ (calls : List (String × FunctionName)) (g : CallGraph),
      calls.foldlM link g = match calls.find? (·.2.function = "") with
        | some call => .error (.unnamedTarget call.1)
        | none => .ok (g.addCalls calls) := by
    intro calls
    induction calls with
    | nil => exact fun g => rfl
    | cons call calls ih =>
        intro g
        rw [List.foldlM_cons, link, List.find?_cons]
        by_cases hname : call.2.function = ""
        · simp only [hname, if_pos, decide_true]
          rfl
        · simp only [hname, if_neg, decide_false, not_false_iff]
          exact ih (g.addCall call.1 call.2.nodeName)
  exact hfold _ _

/-- A callee that was no node before is a placeholder now; nothing else changes. -/
theorem getElem?_addCalls (g : CallGraph) (calls : List (String × FunctionName)) (v : String) :
    (g.addCalls calls).nodes[v]? =
      (g.nodes[v]?).or
        (if ∃ call ∈ calls, call.2.nodeName = v then
          some { externalCallWeight := 0, placeholder := true } else none) := by
  unfold addCalls
  induction calls generalizing g with
  | nil => simp
  | cons call calls ih =>
      rw [List.foldl_cons, ih, getElem?_addCall, Option.or_assoc]
      by_cases hcall : call.2.nodeName = v
      · simp [hcall]
      · simp only [List.mem_cons, exists_eq_or_imp, hcall, if_false, Option.none_or, false_or]

theorem calls_addCalls {g : CallGraph} {calls : List (String × FunctionName)} {u w : String} :
    (g.addCalls calls).Calls u w ↔
      g.Calls u w ∨ ∃ call ∈ calls, call.1 = u ∧ call.2.nodeName = w := by
  unfold addCalls
  induction calls generalizing g with
  | nil => simp
  | cons call calls ih =>
      rw [List.foldl_cons, ih, calls_addCall]
      simp only [List.mem_cons, exists_eq_or_imp]
      tauto

/-! ## The described graph -/

/-- The graph is what the contracts say about nodes and calls. -/
structure Describes (contracts : List Contract) (g : CallGraph) : Prop where
  node : ∀ id, g.contains id = true ↔
    Declares contracts id ∨ ∃ caller target, Targets contracts caller target ∧ target.nodeName = id
  placeholder : ∀ id node, g.nodes[id]? = some node →
    (node.placeholder = true ↔ ¬ Declares contracts id)
  declared_weight : ∀ id, Declares contracts id →
    g.weight id = Count.sum ((functionsNamed contracts id).map (·.callWeight))
  placeholder_weight : ∀ id, ¬ Declares contracts id → g.weight id = 0
  call : ∀ u w, g.Calls u w ↔ ∃ target, Targets contracts u target ∧ target.nodeName = w

theorem eq_addCalls_of_ofContracts {contracts : List Contract} {g : CallGraph}
    (h : ofContracts contracts = .ok g) :
    g = (ofFunctions (declaredFunctions contracts)).addCalls (resolvedCalls contracts) := by
  rw [ofContracts_eq] at h
  split at h
  · cases h
  · exact (Except.ok.inj h).symm

/-- The node of a declared function, whether calls lead to it or not. -/
theorem getElem?_of_declares {contracts : List Contract} {g : CallGraph} {id : String}
    (h : ofContracts contracts = .ok g) (hid : Declares contracts id) :
    g.nodes[id]? = some
      { externalCallWeight := Count.sum ((functionsNamed contracts id).map (·.callWeight))
        placeholder := false } := by
  obtain ⟨⟨weight, placeholder⟩, hnode⟩ :=
    contains_iff.mp (contains_ofFunctions.mpr (declares_iff.mp hid))
  obtain rfl : placeholder = false := placeholder_ofFunctions hnode
  have hweight := weight_ofFunctions (declaredFunctions contracts) id
  rw [CallGraph.weight, hnode] at hweight
  rw [eq_addCalls_of_ofContracts h, getElem?_addCalls, hnode, Option.some_or, functionsNamed_eq,
    List.map_map]
  exact congrArg (fun weight => some (CallNode.mk weight false)) hweight

theorem getElem?_of_not_declares {contracts : List Contract} {g : CallGraph} {id : String}
    (h : ofContracts contracts = .ok g) (hid : ¬ Declares contracts id) :
    g.nodes[id]? =
      if ∃ call ∈ resolvedCalls contracts, call.2.nodeName = id then
        some { externalCallWeight := 0, placeholder := true } else none := by
  have hnone : (ofFunctions (declaredFunctions contracts)).nodes[id]? = none := by
    rw [Option.eq_none_iff_forall_ne_some]
    intro node hnode
    exact hid (declares_iff.mpr (contains_ofFunctions.mp (contains_iff.mpr ⟨node, hnode⟩)))
  rw [eq_addCalls_of_ofContracts h, getElem?_addCalls, hnone, Option.none_or]

/-- Construction gives the described graph. -/
theorem describes_of_ofContracts {contracts : List Contract} {g : CallGraph}
    (h : ofContracts contracts = .ok g) : Describes contracts g := by
  constructor
  case node =>
    intro id
    by_cases hid : Declares contracts id
    · simp [contains_iff, getElem?_of_declares h hid, hid]
    · simp [contains_iff, getElem?_of_not_declares h hid, hid, targets_iff]
  case placeholder =>
    intro id node hnode
    by_cases hid : Declares contracts id
    · rw [getElem?_of_declares h hid] at hnode
      cases hnode
      simp [hid]
    · rw [getElem?_of_not_declares h hid] at hnode
      split at hnode
      · cases hnode
        simp [hid]
      · cases hnode
  case declared_weight =>
    intro id hid
    rw [weight, getElem?_of_declares h hid]
  case placeholder_weight =>
    intro id hid
    rw [weight, getElem?_of_not_declares h hid]
    by_cases htarget : ∃ call ∈ resolvedCalls contracts, call.2.nodeName = id
    · rw [if_pos htarget]
    · rw [if_neg htarget]
  case call =>
    intro u w
    have hempty : ¬ (ofFunctions (declaredFunctions contracts)).Calls u w := by
      simp [Calls, calls, (ofFunctions_spec _).1]
    rw [eq_addCalls_of_ofContracts h, calls_addCalls]
    simp only [hempty, false_or, targets_iff, Prod.exists]
    constructor
    · rintro ⟨caller, target, hmem, rfl, htarget⟩
      exact ⟨target, hmem, htarget⟩
    · rintro ⟨target, hmem, htarget⟩
      exact ⟨u, target, hmem, rfl, htarget⟩

/-- A placeholder calls nothing. -/
theorem Describes.successors_of_placeholder {contracts : List Contract} {g : CallGraph}
    (h : Describes contracts g) {id : String} {node : CallNode} (hnode : g.nodes[id]? = some node)
    (hplaceholder : node.placeholder = true) : g.successors id = [] := by
  have hid := (h.placeholder id node hnode).mp hplaceholder
  apply List.eq_nil_iff_forall_not_mem.mpr
  intro w hw
  -- whoever has a call site is declared
  obtain ⟨target, ⟨c, hc, hconcrete, f, hf, hname, -⟩, -⟩ := (h.call id w).mp (mem_successors.mp hw)
  exact hid ⟨c, hc, hconcrete, f, hf, hname⟩

/-! ## The first unnamed target -/

theorem find?_resolvedCalls (contracts : List Contract) :
    (resolvedCalls contracts).find? (·.2.function = "") =
      ((sitesInOrder contracts).find? (·.2.Unnamed)).bind fun (caller, site) =>
        site.target.map fun target => (caller, target) := by
  rw [resolvedCalls_eq, List.find?_filterMap]
  congr 2
  funext entry
  rw [Option.any_map, Bool.eq_iff_iff, decide_eq_true_iff]
  exact CallSite.any_target_iff

theorem ofContracts_eq_error_iff {contracts : List Contract} {e : LinkError} :
    ofContracts contracts = .error e ↔
      ∃ before caller site after, sitesInOrder contracts = before ++ (caller, site) :: after ∧
        site.Unnamed ∧ (∀ earlier ∈ before, ¬ earlier.2.Unnamed) ∧ e = .unnamedTarget caller := by
  rw [ofContracts_eq, find?_resolvedCalls]
  constructor
  · intro h
    split at h
    · rename_i call hcall
      obtain ⟨⟨caller, site⟩, hfind, hsite⟩ := Option.bind_eq_some_iff.mp hcall
      obtain ⟨target, -, rfl⟩ := Option.map_eq_some_iff.mp hsite
      obtain ⟨hunnamed, before, after, hsplit, hbefore⟩ := List.find?_eq_some_iff_append.mp hfind
      refine ⟨before, caller, site, after, hsplit, of_decide_eq_true hunnamed, ?_, ?_⟩
      · intro earlier hearlier
        simpa using hbefore earlier hearlier
      · exact (Except.error.inj h).symm
    · cases h
  · rintro ⟨before, caller, site, after, hsplit, hunnamed, hbefore, rfl⟩
    have hfind : (sitesInOrder contracts).find? (·.2.Unnamed) = some (caller, site) := by
      refine List.find?_eq_some_iff_append.mpr ⟨decide_eq_true hunnamed, before, after, hsplit, ?_⟩
      intro earlier hearlier
      simpa using hbefore earlier hearlier
    obtain ⟨target, htarget, -⟩ := hunnamed
    simp [hfind, htarget]

theorem exists_error_iff {contracts : List Contract} :
    (∃ e, ofContracts contracts = .error e) ↔
      ∃ caller target, Targets contracts caller target ∧ target.function = "" := by
  rw [ofContracts_eq]
  constructor
  · rintro ⟨e, h⟩
    split at h
    · rename_i call hcall
      have hname := List.find?_some hcall
      exact ⟨call.1, call.2, targets_iff.mpr (List.mem_of_find?_eq_some hcall),
        of_decide_eq_true hname⟩
    · cases h
  · rintro ⟨caller, target, htarget, hname⟩
    split
    · exact ⟨_, rfl⟩
    · rename_i hnone
      have := List.find?_eq_none.mp hnone _ (targets_iff.mp htarget)
      simp [hname] at this

/-- Construction fails exactly if some call site of a function of a concrete contract has a target
without a function name, and then names the caller of the first such call site. Otherwise the graph
is the one that the contracts describe; both ends of every call are nodes, and placeholders call
nothing. -/
theorem ofContracts_declarative (contracts : List Contract) :
    ((∃ e, ofContracts contracts = .error e) ↔
      ∃ caller target, Targets contracts caller target ∧ target.function = "") ∧
    (∀ e, ofContracts contracts = .error e ↔
      ∃ before caller site after, sitesInOrder contracts = before ++ (caller, site) :: after ∧
        site.Unnamed ∧ (∀ earlier ∈ before, ¬ earlier.2.Unnamed) ∧ e = .unnamedTarget caller) ∧
    ∀ g, ofContracts contracts = .ok g →
      Describes contracts g ∧ g.WellFormed ∧
        ∀ id node, g.nodes[id]? = some node → node.placeholder = true → g.successors id = [] := by
  refine ⟨exists_error_iff, fun e => ofContracts_eq_error_iff, ?_⟩
  intro g hg
  have hdescribes := describes_of_ofContracts hg
  refine ⟨hdescribes, wellFormed_of_ofContracts hg, ?_⟩
  intro id node hnode hplaceholder
  exact hdescribes.successors_of_placeholder hnode hplaceholder

/-- A contract with overloads that calls an interface and, before it is declared, a function of its
own. -/
def overloads : List Contract :=
  [{ id := "Token"
     kind := .interface
     functions := [{ id := "move", visibility := .externally }] },
   { id := "Wallet"
     kind := .concrete
     functions :=
      [{ id := "pay"
         visibility := .publicly
         callSites :=
          [{ kind := .external, name := "move", target := some ⟨"Token", "move"⟩, position := 1 },
           { kind := .internal, name := "note", target := some ⟨"Wallet", "note"⟩
             position := 2 }] },
       { id := "pay"
         visibility := .publicly
         callSites := [{ kind := .lowLevel, name := "call", position := 1 }] },
       { id := "note", visibility := .internally }] }]

/-- Overloads share a node with the weight of both, and the interface is only a placeholder. -/
theorem ofContracts_overloads :
    ∃ g, ofContracts overloads = .ok g ∧ g.weight "Wallet.pay" = 2 ∧
      g.Calls "Wallet.pay" "Wallet.note" ∧
      ∃ node, g.nodes["Token.move"]? = some node ∧ node.placeholder = true := by
  obtain ⟨g, hg, -⟩ := exists_ok_of_any (x := ofContracts overloads) (fun _ => true)
    (by decide +kernel)
  obtain ⟨hdescribes, -, -⟩ := (ofContracts_declarative overloads).2.2 g hg
  obtain ⟨node, hnode⟩ := contains_iff.mp ((hdescribes.node "Token.move").mpr
    (Or.inr ⟨"Wallet.pay", ⟨"Token", "move"⟩, by decide, rfl⟩))
  refine ⟨g, hg, ?_, ?_, node, hnode, ?_⟩
  · exact hdescribes.declared_weight "Wallet.pay" (by decide)
  · exact (hdescribes.call _ _).mpr ⟨⟨"Wallet", "note"⟩, by decide, rfl⟩
  · exact (hdescribes.placeholder _ node hnode).mpr (by decide)

end CallGraph

end RiskGate
