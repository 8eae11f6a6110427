import RiskGate.Proofs.Features.Batch

/-! # Counted call sites

Four features count call sites, each with conditions of its own on the kind, the name, the source
text and the statement of a call. One site may meet a condition in several ways, and is counted once
all the same.

* `CallSite.Speaks`, a word in the name or the source text of a call, in any case;
* `countedSites` and `allSites`, the call sites of a unit without and with those of constructors and
  fallbacks;
* `count_ofContracts`: what is counted function by function is counted over the sites of the unit;
* `ofContracts_callCounts`: the four features, and how they compare.
-/

namespace RiskGate

/-! ## Words in names and expressions -/

theorem Text.occursIn_iff {word text : List Char} :
    occursIn word text = true ↔ word <:+: text := by
  induction text with
  | nil => simp [occursIn]
  | cons c rest ih =>
    rw [occursIn, Bool.or_eq_true, List.isPrefixOf_iff_prefix, ih, List.infix_cons_iff]

namespace CallSite

/-- The word, itself in lower case, stands in the lower-cased name or source text of the call. -/
def Speaks (site : CallSite) (word : String) : Prop :=
  word.toList <:+: Text.lower site.name.toList ∨
    ∃ expression, site.expression = some expression ∧
      word.toList <:+: Text.lower expression.toList

theorem mentions_iff {site : CallSite} {word : String} :
    site.mentions word = true ↔ site.Speaks word := by
  simp [mentions, Speaks, Text.mentions, Text.occursIn_iff, Option.any_eq_true]

/-- What speaks of a word speaks of its parts. -/
theorem Speaks.of_infix {site : CallSite} {part word : String} (h : site.Speaks word)
    (hpart : part.toList <:+: word.toList) : site.Speaks part := by
  rcases h with hname | ⟨expression, hexpression, htext⟩
  · exact Or.inl (hpart.trans hname)
  · exact Or.inr ⟨expression, hexpression, hpart.trans htext⟩

/-! ## What is counted -/

/-- The site is counted as a delegatecall, by its kind or by what it says. -/
def IsDelegatecall (site : CallSite) : Prop := site.kind = .delegate ∨ site.Speaks "delegatecall"

/-- The site is counted as sending currency: by its kind, or as an external call of a name. -/
def IsPayment (site : CallSite) : Prop :=
  site.kind = .send ∨ site.kind = .transfer ∨
    site.kind ≠ .internal ∧ (site.name = "send" ∨ site.name = "transfer")

/-- Nothing looks at what the call returns. -/
def Unobserved (site : CallSite) : Prop :=
  site.statement ≠ .assignment ∧ site.statement ≠ .condition

/-- The site is counted as unchecked: it returns a status, by its kind or by what it says, and
nothing looks at it. -/
def IsUnchecked (site : CallSite) : Prop :=
  (site.kind = .lowLevel ∨ site.kind = .delegate ∨ site.kind = .send ∨ site.Speaks "call") ∧
    site.Unobserved

theorem leavesContract_iff {site : CallSite} : site.leavesContract = true ↔ site.kind ≠ .internal :=
  decide_eq_true_iff

theorem runsForeignCode_iff {site : CallSite} :
    site.runsForeignCode = true ↔ site.IsDelegatecall := by
  -- the name is searched for internal calls and for others apart, which comes to all calls
  have hmentions : site.runsForeignCode = true ↔
      site.kind = .delegate ∨ site.mentions "delegatecall" = true := by
    unfold runsForeignCode mentions leavesContract
    cases site.kind <;> simp
  rw [hmentions, mentions_iff, IsDelegatecall]

theorem sendsCurrency_iff {site : CallSite} : site.sendsCurrency = true ↔ site.IsPayment := by
  simp [sendsCurrency, IsPayment, leavesContract, or_assoc]

theorem looksAtResult_iff {site : CallSite} :
    site.statement.looksAtResult = false ↔ site.Unobserved := by
  unfold Unobserved
  cases site.statement <;> simp [StatementKind.looksAtResult]

theorem mayFailUnnoticed_iff {site : CallSite} :
    site.mayFailUnnoticed = true ↔ site.IsUnchecked := by
  simp [mayFailUnnoticed, returnsStatus, mentions_iff, looksAtResult_iff, IsUnchecked, or_assoc]

instance (site : CallSite) : Decidable site.IsDelegatecall := decidable_of_iff _ runsForeignCode_iff

instance (site : CallSite) : Decidable site.IsPayment := decidable_of_iff _ sendsCurrency_iff

instance (site : CallSite) : Decidable site.Unobserved := decidable_of_iff _ looksAtResult_iff

instance (site : CallSite) : Decidable site.IsUnchecked := decidable_of_iff _ mayFailUnnoticed_iff

/-- Payments leave the contract. -/
theorem IsPayment.kind_ne_internal {site : CallSite} (h : site.IsPayment) :
    site.kind ≠ .internal := by
  rcases h with hkind | hkind | ⟨hkind, -⟩
  · simp [hkind]
  · simp [hkind]
  · exact hkind

/-- What speaks of a delegatecall speaks of a call. -/
theorem IsDelegatecall.isUnchecked {site : CallSite} (h : site.IsDelegatecall)
    (hunobserved : site.Unobserved) : site.IsUnchecked := by
  rcases h with hkind | hspeaks
  · exact ⟨Or.inr (Or.inl hkind), hunobserved⟩
  · have hcall : site.Speaks "call" := hspeaks.of_infix (by decide)
    exact ⟨Or.inr (Or.inr (Or.inr hcall)), hunobserved⟩

end CallSite

/-- The call sites of a function that three of the features count: none of a constructor or a
fallback. -/
def ContractFunction.countedSites (f : ContractFunction) : List CallSite :=
  if f.isConstructor = true ∨ f.isFallback = true then [] else f.callSites

/-- The call sites of all functions of concrete contracts but constructors and fallbacks. -/
def countedSites (contracts : List Contract) : List CallSite :=
  (concrete contracts).flatMap fun c => c.functions.flatMap (·.countedSites)

/-- The call sites of all functions of concrete contracts. -/
def allSites (contracts : List Contract) : List CallSite :=
  (concrete contracts).flatMap fun c => c.functions.flatMap (·.callSites)

theorem ContractFunction.countedSites_sublist (f : ContractFunction) :
    f.countedSites.Sublist f.callSites := by
  unfold countedSites
  split_ifs
  · exact List.nil_sublist _
  · exact List.Sublist.refl _

theorem countedSites_sublist (contracts : List Contract) :
    (countedSites contracts).Sublist (allSites contracts) := by
  apply List.Sublist.flatMap_right
  intro c _
  apply List.Sublist.flatMap_right
  exact fun f _ => f.countedSites_sublist

/-! ## Counting through a unit -/

open FeatureVector

theorem count_addModifier (v : FeatureVector) (name : String) :
    ∀ count ∈ staticCounts, count (v.addModifier name) = count v := by
  simp [staticCounts, addModifier]

theorem count_foldl_addModifier {count : FeatureVector → Count} (hcount : count ∈ staticCounts)
    (names : List String) (v : FeatureVector) : count (names.foldl addModifier v) = count v := by
  induction names generalizing v with
  | nil => rfl
  | cons name names ih => rw [List.foldl_cons, ih, count_addModifier v name count hcount]

/-- A count of a contract is the sum over its functions; modifiers count nothing. -/
theorem count_features {count : FeatureVector → Count} (hcount : count ∈ staticCounts)
    (c : Contract) :
    count c.features = Count.sum (c.functions.map fun f => count (addFunction {} f)) := by
  rw [Contract.features, addContract, count_foldl_addModifier hcount,
    foldl_eq_merge adds_addFunction, count_foldl_merge hcount, List.map_map]
  rfl

/-- What is counted over sites of every function is counted over those sites of the unit. -/
theorem count_ofContracts (count : FeatureVector → Count) (hcount : count ∈ staticCounts)
    {sites : ContractFunction → List CallSite} {p : CallSite → Bool}
    (hfunction : ∀ f, count (addFunction {} f) = .ofNat ((sites f).countP p))
    {contracts : List Contract} {x : Extraction} (h : Extraction.ofContracts contracts = .ok x) :
    count x.features = .ofNat
      (((concrete contracts).flatMap fun c => c.functions.flatMap sites).countP p) := by
  have hfeatures : FeatureVector.ofContracts contracts = .ok x.features := by
    rw [FeatureVector.ofContracts, h]
    rfl
  rcases ofContracts_eq_ok_iff.mp hfeatures with ⟨-, heq⟩
  have hcontract : ∀ c : Contract,
      count c.features = .ofNat ((c.functions.flatMap sites).countP p) := by
    intro c
    simp only [count_features hcount, hfunction, List.countP_flatMap]
    rw [← Count.sum_map_ofNat, List.map_map]
    rfl
  rw [heq, count_withGraph contracts _ count hcount, count_foldl_merge hcount, List.map_map,
    List.countP_flatMap, ← Count.sum_map_ofNat, List.map_map]
  congr 1
  exact List.map_congr_left fun c _ => hcontract c

/-- The visibility of a function has no part in the counts of call sites. -/
theorem addVisibility_callCounts (v : FeatureVector) (f : ContractFunction) :
    (v.addVisibility f).externalCallCount = v.externalCallCount ∧
      (v.addVisibility f).delegatecallCount = v.delegatecallCount ∧
      (v.addVisibility f).sendTransferCount = v.sendTransferCount ∧
      (v.addVisibility f).uncheckedCallCount = v.uncheckedCallCount := by
  unfold addVisibility
  cases f.visibility <;> exact ⟨rfl, rfl, rfl, rfl⟩

/-- What a function adds to the counts of call sites. -/
theorem addFunction_callCounts (f : ContractFunction) :
    (addFunction {} f).externalCallCount =
      .ofNat (f.countedSites.countP fun site => site.kind ≠ .internal) ∧
    (addFunction {} f).delegatecallCount = .ofNat (f.countedSites.countP (·.IsDelegatecall)) ∧
    (addFunction {} f).sendTransferCount = .ofNat (f.countedSites.countP (·.IsPayment)) ∧
    (addFunction {} f).uncheckedCallCount = .ofNat (f.callSites.countP (·.IsUnchecked)) := by
  have hdecide : ∀ {b : Bool} {p : Prop} [Decidable p], (b = true ↔ p) → decide p = b := by
    intro b p _ h
    exact (decide_eq_decide.mpr h.symm).trans (Bool.decide_coe b)
  have hexempt : (if f.isConstructor = true ∨ f.isFallback = true then [] else f.callSites) =
      if f.exemptFromCallCounts then [] else f.callSites := by
    simp [ContractFunction.exemptFromCallCounts]
  simp only [hdecide CallSite.leavesContract_iff, hdecide CallSite.runsForeignCode_iff,
    hdecide CallSite.sendsCurrency_iff, hdecide CallSite.mayFailUnnoticed_iff,
    ContractFunction.countedSites, hexempt]
  -- a function may be exempt from one kind of count, from both, or from none
  unfold addFunction
  cases f.exemptFromCallCounts <;> cases f.exemptFromVisibilityCounts <;>
    simp [addConstructs, addWrites, addCalls, addVisibility_callCounts]

/-- The four counts of call sites, cut at the limit of counts: what leaves the contract, what is a
delegatecall and what sends currency, in functions that are neither constructors nor fallbacks, and
what nothing looks at although it returns a status, in all functions. So no more sites are counted
as payments than as external, and a delegatecall that nothing looks at is counted as unchecked. -/
theorem ofContracts_callCounts {contracts : List Contract} {x : Extraction}
    (h : Extraction.ofContracts contracts = .ok x) :
    x.features.externalCallCount =
      .ofNat ((countedSites contracts).countP fun site => site.kind ≠ .internal) ∧
    x.features.delegatecallCount = .ofNat ((countedSites contracts).countP (·.IsDelegatecall)) ∧
    x.features.sendTransferCount = .ofNat ((countedSites contracts).countP (·.IsPayment)) ∧
    x.features.uncheckedCallCount = .ofNat ((allSites contracts).countP (·.IsUnchecked)) ∧
    x.features.sendTransferCount.toNat ≤ x.features.externalCallCount.toNat ∧
    ((countedSites contracts).filter fun site => site.IsDelegatecall ∧ site.Unobserved).Sublist
      ((allSites contracts).filter (·.IsUnchecked)) := by
  have hexternal := count_ofContracts externalCallCount (by simp [staticCounts])
    (fun f => (addFunction_callCounts f).1) h
  have hdelegatecalls := count_ofContracts delegatecallCount (by simp [staticCounts])
    (fun f => (addFunction_callCounts f).2.1) h
  have hpayments := count_ofContracts sendTransferCount (by simp [staticCounts])
    (fun f => (addFunction_callCounts f).2.2.1) h
  have hunchecked := count_ofContracts uncheckedCallCount (by simp [staticCounts])
    (fun f => (addFunction_callCounts f).2.2.2) h
  refine ⟨hexternal, hdelegatecalls, hpayments, hunchecked, ?_, ?_⟩
  · rw [hexternal, hpayments]
    apply Count.toNat_ofNat_mono
    apply List.countP_mono_left
    intro site _ hpayment
    simpa using CallSite.IsPayment.kind_ne_internal (of_decide_eq_true hpayment)
  · have hunobserved : ∀ site : CallSite, decide (site.IsDelegatecall ∧ site.Unobserved) = true →
        decide site.IsUnchecked = true := by
      intro site hsite
      rcases of_decide_eq_true hsite with ⟨hdelegatecall, hunobserved⟩
      exact decide_eq_true (hdelegatecall.isUnchecked hunobserved)
    exact (List.monotone_filter_right _ hunobserved).trans ((countedSites_sublist _).filter _)

/-- A proxy that hands calls on, pays out, and has a constructor that calls the implementation; a
library that does the same is not looked at. -/
def proxy : List Contract :=
  [{ id := "Proxy"
     kind := .concrete
     functions := [
      { id := "init"
        visibility := .publicly
        isConstructor := true
        callSites := [{ kind := .lowLevel, name := "call", position := 1 }] },
      { id := "forward"
        visibility := .externally
        callSites := [
          { kind := .delegate, name := "DelegateCall", expression := some "impl.delegatecall(data)"
            position := 1 },
          { kind := .internal, name := "_delegateCall", statement := .returned, position := 2 },
          { kind := .delegate, name := "delegatecall", statement := .condition, position := 3 },
          { kind := .send, name := "send", statement := .assignment, position := 4 },
          { kind := .external, name := "transfer", position := 5 },
          { kind := .internal, name := "transfer", position := 6 }] }] },
   { id := "Lib"
     kind := .library
     functions := [
      { id := "forward"
        visibility := .internally
        callSites := [{ kind := .delegate, name := "delegatecall", position := 1 }] }] }]

theorem ofContracts_proxy :
    ∃ x, Extraction.ofContracts proxy = .ok x ∧ x.features.externalCallCount = 4 ∧
      x.features.delegatecallCount = 3 ∧ x.features.sendTransferCount = 2 ∧
      x.features.uncheckedCallCount = 3 ∧
      (countedSites proxy).countP (fun site => site.IsDelegatecall ∧ site.Unobserved) = 2 := by
  obtain ⟨x, hx, -⟩ := CallGraph.exists_ok_of_any (x := Extraction.ofContracts proxy)
    (fun _ => true) (by decide +kernel)
  rcases ofContracts_callCounts hx with ⟨hexternal, hdelegatecalls, hpayments, hunchecked, -, -⟩
  refine ⟨x, hx, hexternal.trans ?_, hdelegatecalls.trans ?_, hpayments.trans ?_,
    hunchecked.trans ?_, ?_⟩
  all_goals decide +kernel

end RiskGate
