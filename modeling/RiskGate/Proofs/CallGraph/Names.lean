import RiskGate.Facts.Validity
import RiskGate.Proofs.CallGraph.Construction

/-! # The names of nodes

A node has the name of a contract and the name of a function, joined by a dot. Either may contain
dots of its own, so a node may stand for functions of several contracts.

* `FunctionName.nodeName_eq_iff`: two names join to one exactly if they are equal, or a dot inside
  one of them is taken for the separator;
* `OneNodePerName`: nodes, weights and calls of a graph in which no node stands for two names;
* `nodes_of_names`: a constructed graph is such a graph exactly if no name that the contracts
  mention extends another.
-/

namespace RiskGate

namespace FunctionName

/-- The dot that separates the names of `b` stands inside the contract name of `a`. What follows it
there begins the function name of `b`. -/
def Extends (a b : FunctionName) : Prop :=
  ∃ middle, a.contract = b.contract ++ "." ++ middle ∧ b.function = middle ++ "." ++ a.function

theorem toList_nodeName (a : FunctionName) :
    a.nodeName.toList = a.contract.toList ++ '.' :: a.function.toList := by
  simp [nodeName]

theorem Extends.nodeName_eq {a b : FunctionName} (h : a.Extends b) : a.nodeName = b.nodeName := by
  rcases h with ⟨middle, hcontract, hfunction⟩
  simp only [nodeName, hcontract, hfunction, String.append_assoc]

theorem Extends.length_lt {a b : FunctionName} (h : a.Extends b) :
    b.contract.length < a.contract.length := by
  rcases h with ⟨middle, hcontract, -⟩
  have hdot : ".".length = 1 := rfl
  rw [hcontract, String.length_append, String.length_append, hdot]
  omega

theorem not_extends_self (a : FunctionName) : ¬ a.Extends a :=
  fun h => Nat.lt_irrefl _ h.length_lt

/-- Where the contract name of `b` overlaps the rest of the joined name of `a`, the names are equal
if the overlap is empty, and otherwise it begins with the separator of `a`. -/
theorem eq_or_extends_of_overlap {a b : FunctionName} {overlap : List Char}
    (hcontract : b.contract.toList = a.contract.toList ++ overlap)
    (hfunction : '.' :: a.function.toList = overlap ++ '.' :: b.function.toList) :
    a = b ∨ b.Extends a := by
  cases overlap with
  | nil =>
      left
      rw [List.append_nil] at hcontract
      rw [List.nil_append, List.cons.injEq] at hfunction
      rcases a with ⟨contract, function⟩
      rw [mk.injEq]
      exact ⟨String.toList_inj.mp hcontract.symm, String.toList_inj.mp hfunction.2⟩
  | cons separator middle =>
      right
      rw [List.cons_append, List.cons.injEq] at hfunction
      rcases hfunction with ⟨rfl, hfunction⟩
      refine ⟨String.ofList middle, ?_, ?_⟩
      · apply String.toList_inj.mp
        simp [hcontract]
      · apply String.toList_inj.mp
        simp [hfunction]

/-- Joined names are equal exactly if the names are, or one extends the other. -/
theorem nodeName_eq_iff {a b : FunctionName} :
    a.nodeName = b.nodeName ↔ a = b ∨ a.Extends b ∨ b.Extends a := by
  constructor
  · intro h
    have hchars := congrArg String.toList h
    rw [toList_nodeName, toList_nodeName] at hchars
    -- the longer contract name begins with the shorter one
    rcases List.append_eq_append_iff.mp hchars with ⟨overlap, hb, ha⟩ | ⟨overlap, ha, hb⟩
    · rcases eq_or_extends_of_overlap hb ha with heq | hext
      · exact Or.inl heq
      · exact Or.inr (Or.inr hext)
    · rcases eq_or_extends_of_overlap ha hb with heq | hext
      · exact Or.inl heq.symm
      · exact Or.inr (Or.inl hext)
  · rintro (rfl | hext | hext)
    · rfl
    · exact hext.nodeName_eq
    · exact hext.nodeName_eq.symm

/-- A contract name without a dot extends nothing. -/
theorem not_extends_of_notMem {a b : FunctionName} (h : '.' ∉ a.contract.toList) :
    ¬ a.Extends b := by
  rintro ⟨middle, hcontract, -⟩
  apply h
  simp [hcontract]

end FunctionName

/-! ## Names that contracts mention -/

/-- The names of the functions of concrete contracts, in order. -/
def declaredNames (contracts : List Contract) : List FunctionName :=
  (concrete contracts).flatMap fun c => c.functions.map fun f => ⟨c.id, f.id⟩

/-- The names of the functions of concrete contracts and of the targets of their call sites. -/
def mentionedNames (contracts : List Contract) : List FunctionName :=
  declaredNames contracts ++ (resolvedCalls contracts).map (·.2)

/-- The functions of concrete contracts with exactly that contract name and function name. -/
def functionsOf (contracts : List Contract) (a : FunctionName) : List ContractFunction :=
  (concrete contracts).flatMap fun c => c.functions.filter fun f => FunctionName.mk c.id f.id = a

theorem mem_declaredNames {contracts : List Contract} {a : FunctionName} :
    a ∈ declaredNames contracts ↔
      ∃ c ∈ concrete contracts, ∃ f ∈ c.functions, FunctionName.mk c.id f.id = a := by
  simp [declaredNames]

theorem mem_functionsOf {contracts : List Contract} {a : FunctionName} {f : ContractFunction} :
    f ∈ functionsOf contracts a ↔
      ∃ c ∈ concrete contracts, f ∈ c.functions ∧ FunctionName.mk c.id f.id = a := by
  simp [functionsOf]

theorem declares_iff_declaredNames {contracts : List Contract} {id : String} :
    Declares contracts id ↔ ∃ a ∈ declaredNames contracts, a.nodeName = id := by
  constructor
  · rintro ⟨c, hc, hconcrete, f, hf, hid⟩
    exact ⟨⟨c.id, f.id⟩, mem_declaredNames.mpr ⟨c, mem_concrete.mpr ⟨hc, hconcrete⟩, f, hf, rfl⟩,
      hid⟩
  · rintro ⟨a, ha, hid⟩
    rcases mem_declaredNames.mp ha with ⟨c, hc, f, hf, rfl⟩
    rcases mem_concrete.mp hc with ⟨hc, hconcrete⟩
    exact ⟨c, hc, hconcrete, f, hf, hid⟩

theorem mem_mentionedNames_of_targets {contracts : List Contract} {caller : String}
    {target : FunctionName} (h : Targets contracts caller target) :
    target ∈ mentionedNames contracts :=
  List.mem_append_right _ (List.mem_map.mpr ⟨(caller, target), targets_iff.mp h, rfl⟩)

theorem mem_mentionedNames_of_mem_functions {contracts : List Contract} {c : Contract}
    {f : ContractFunction} (hc : c ∈ concrete contracts) (hf : f ∈ c.functions) :
    ⟨c.id, f.id⟩ ∈ mentionedNames contracts :=
  List.mem_append_left _ (mem_declaredNames.mpr ⟨c, hc, f, hf, rfl⟩)

/-! ## One node for each name -/

namespace CallGraph

/-- No node stands for two of the names that the contracts mention: a node is declared, weighs and
calls what the functions of its one name say. -/
structure OneNodePerName (contracts : List Contract) (g : CallGraph) : Prop where
  distinct : ∀ a ∈ mentionedNames contracts, ∀ b ∈ mentionedNames contracts,
    a.nodeName = b.nodeName → a = b
  declared : ∀ a ∈ mentionedNames contracts, ∀ node, g.nodes[a.nodeName]? = some node →
    (node.placeholder = false ↔ a ∈ declaredNames contracts)
  weight : ∀ a ∈ mentionedNames contracts,
    g.weight a.nodeName = Count.sum ((functionsOf contracts a).map (·.callWeight))
  call : ∀ a ∈ mentionedNames contracts, ∀ b ∈ mentionedNames contracts,
    (g.Calls a.nodeName b.nodeName ↔
      ∃ f ∈ functionsOf contracts a, ∃ site ∈ f.callSites, site.target = some b)

/-- The weight of a node, declared or not, is that of the functions with its name. -/
theorem Describes.weight_eq {contracts : List Contract} {g : CallGraph} (h : Describes contracts g)
    (id : String) :
    g.weight id = Count.sum ((functionsNamed contracts id).map (·.callWeight)) := by
  by_cases hid : Declares contracts id
  · exact h.declared_weight id hid
  · have hnone : functionsNamed contracts id = [] := by
      apply List.eq_nil_iff_forall_not_mem.mpr
      intro f hf
      rcases List.mem_flatMap.mp hf with ⟨c, hc, hf⟩
      rcases List.mem_filter.mp hf with ⟨hf, hname⟩
      rcases mem_concrete.mp hc with ⟨hc, hconcrete⟩
      exact hid ⟨c, hc, hconcrete, f, hf, of_decide_eq_true hname⟩
    rw [h.placeholder_weight id hid, hnone]
    rfl

/-- Where joined names tell the mentioned names apart, so does the graph. -/
theorem Describes.oneNodePerName {contracts : List Contract} {g : CallGraph}
    (h : Describes contracts g)
    (hdistinct : ∀ a ∈ mentionedNames contracts, ∀ b ∈ mentionedNames contracts,
      a.nodeName = b.nodeName → a = b) : OneNodePerName contracts g := by
  -- a function with the name of the node has the name that the node stands for
  have hname : ∀ a ∈ mentionedNames contracts, ∀ c ∈ concrete contracts, ∀ f ∈ c.functions,
      c.nodeName f = a.nodeName ↔ FunctionName.mk c.id f.id = a := by
    intro a ha c hc f hf
    constructor
    · exact hdistinct _ (mem_mentionedNames_of_mem_functions hc hf) a ha
    · rintro rfl
      rfl
  constructor
  case distinct => exact hdistinct
  case declared =>
    intro a ha node hnode
    rw [← Bool.not_eq_true, h.placeholder _ node hnode, not_not, declares_iff_declaredNames]
    constructor
    · rintro ⟨b, hb, heq⟩
      rwa [← hdistinct b (List.mem_append_left _ hb) a ha heq]
    · exact fun hdeclared => ⟨a, hdeclared, rfl⟩
  case weight =>
    intro a ha
    have hsame : functionsNamed contracts a.nodeName = functionsOf contracts a := by
      refine List.flatMap_congr fun c hc => List.filter_congr fun f hf => ?_
      rw [decide_eq_decide]
      exact hname a ha c hc f hf
    rw [h.weight_eq, hsame]
  case call =>
    intro a ha b hb
    rw [h.call]
    constructor
    · rintro ⟨target, htargets, heq⟩
      obtain rfl : target = b := hdistinct target (mem_mentionedNames_of_targets htargets) b hb heq
      rcases htargets with ⟨c, hc, hconcrete, f, hf, hcaller, hsite⟩
      have hc : c ∈ concrete contracts := mem_concrete.mpr ⟨hc, hconcrete⟩
      exact ⟨f, mem_functionsOf.mpr ⟨c, hc, hf, (hname a ha c hc f hf).mp hcaller⟩, hsite⟩
    · rintro ⟨f, hf, hsite⟩
      rcases mem_functionsOf.mp hf with ⟨c, hc, hmem, rfl⟩
      rcases mem_concrete.mp hc with ⟨hc, hconcrete⟩
      exact ⟨b, ⟨c, hc, hconcrete, f, hmem, rfl, hsite⟩, rfl⟩

/-- A name that the contracts mention has a node. -/
theorem Describes.contains_of_mentioned {contracts : List Contract} {g : CallGraph}
    (h : Describes contracts g) {a : FunctionName} (ha : a ∈ mentionedNames contracts) :
    g.contains a.nodeName = true := by
  rw [h.node]
  rcases List.mem_append.mp ha with ha | ha
  · exact Or.inl (declares_iff_declaredNames.mpr ⟨a, ha, rfl⟩)
  · rcases List.mem_map.mp ha with ⟨⟨caller, target⟩, hcall, rfl⟩
    exact Or.inr ⟨caller, target, targets_iff.mpr hcall, rfl⟩

/-- Mentioned names share a node exactly if they are equal or one extends the other, and the node of
a name is declared exactly if a declared name shares it. So there is one node for each name exactly
if no mentioned name extends another. -/
theorem nodes_of_names {contracts : List Contract} {g : CallGraph}
    (hg : ofContracts contracts = .ok g) :
    (∀ a ∈ mentionedNames contracts, ∀ b ∈ mentionedNames contracts,
      a.nodeName = b.nodeName ↔ a = b ∨ a.Extends b ∨ b.Extends a) ∧
    (∀ a ∈ mentionedNames contracts, ∃ node, g.nodes[a.nodeName]? = some node ∧
      (node.placeholder = false ↔
        ∃ b ∈ declaredNames contracts, a = b ∨ a.Extends b ∨ b.Extends a)) ∧
    (OneNodePerName contracts g ↔
      ∀ a ∈ mentionedNames contracts, ∀ b ∈ mentionedNames contracts, ¬ a.Extends b) := by
  have hdescribes := describes_of_ofContracts hg
  refine ⟨fun a _ b _ => FunctionName.nodeName_eq_iff, ?_, ?_⟩
  · intro a ha
    rcases contains_iff.mp (hdescribes.contains_of_mentioned ha) with ⟨node, hnode⟩
    refine ⟨node, hnode, ?_⟩
    rw [← Bool.not_eq_true, hdescribes.placeholder _ node hnode, not_not,
      declares_iff_declaredNames]
    simp only [eq_comm (b := a.nodeName), FunctionName.nodeName_eq_iff]
  · constructor
    · intro hone a ha b hb hext
      obtain rfl := hone.distinct a ha b hb hext.nodeName_eq
      exact a.not_extends_self hext
    · intro hnot
      apply hdescribes.oneNodePerName
      intro a ha b hb heq
      rcases FunctionName.nodeName_eq_iff.mp heq with heq | hext | hext
      · exact heq
      · exact absurd hext (hnot a ha b hb)
      · exact absurd hext (hnot b hb a ha)

/-- In `overloads` no contract name has a dot, so there is one node for each name. -/
theorem nodes_of_names_overloads :
    ∃ g, ofContracts overloads = .ok g ∧ OneNodePerName overloads g := by
  obtain ⟨g, hg, -⟩ := exists_ok_of_any (x := ofContracts overloads) (fun _ => true)
    (by decide +kernel)
  refine ⟨g, hg, (nodes_of_names hg).2.2.mpr ?_⟩
  have hdots : ∀ a ∈ mentionedNames overloads, '.' ∉ a.contract.toList := by decide
  intro a ha b _
  exact FunctionName.not_extends_of_notMem (hdots a ha)

/-- A vault with a low-level call, and the next version of it whose name has a dot. -/
def versions : List Contract :=
  [{ id := "Vault.v2"
     kind := .concrete
     functions :=
      [{ id := "pay"
         visibility := .publicly
         callSites := [{ kind := .lowLevel, name := "call", position := 1 }] }] },
   { id := "Vault"
     kind := .concrete
     functions :=
      [{ id := "v2.pay"
         visibility := .publicly
         callSites :=
          [{ kind := .external, name := "pay", target := some ⟨"Vault.v2", "pay"⟩
             position := 1 }] }] }]

/-- Both contracts of `versions` are fit for extraction and their functions have different names,
yet both have the node `Vault.v2.pay`. It has the weight of both, and the call from one to the other
is a call to itself: a cycle with an external call. -/
theorem versions_share_node :
    (∀ c ∈ versions, c.check = .ok ()) ∧
    ∃ g m, ofContracts versions = .ok g ∧ Metrics.ofContracts versions = .ok m ∧
      (∃ c ∈ concrete versions, ∃ d ∈ concrete versions, ∃ f ∈ c.functions, ∃ h ∈ d.functions,
        c.nodeName f = d.nodeName h ∧ c.id ≠ d.id ∧ f.id ≠ h.id) ∧
      g.nodeCount = 1 ∧ g.weight "Vault.v2.pay" = 2 ∧ g.Calls "Vault.v2.pay" "Vault.v2.pay" ∧
      m.hasCycles = true ∧ m.externalCallInCycle = true := by
  refine ⟨by decide, ?_⟩
  obtain ⟨g, hg, hcheck⟩ := exists_ok_of_any (x := ofContracts versions)
    (fun g =>
      let m := g.metrics (g.maxDepth ∅).1
      decide (g.nodeCount = 1 ∧ g.weight "Vault.v2.pay" = 2 ∧
        g.Calls "Vault.v2.pay" "Vault.v2.pay" ∧ m.hasCycles = true ∧
        m.externalCallInCycle = true))
    (by decide +kernel)
  exact ⟨g, _, hg, metrics_ofContracts hg, by decide, of_decide_eq_true hcheck⟩

end CallGraph

end RiskGate
