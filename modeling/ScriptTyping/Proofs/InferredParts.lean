import ScriptTyping.Proofs.ArgumentFreeBases
import ScriptTyping.Proofs.HereditaryTypes

/-!
# What an inference is given

Walking a parameter's type and an argument side by side comes to the same as collecting which type
parameter is met with which part of the argument, and binding them one after the other. What a name
is bound to then depends on the parts that the name is met with alone.
-/

namespace ScriptTyping.Inference

variable {ds : Definitions} {parameter argument : Ty} {depth : Nat} {i : Inference} {name : String}

/-! ## Parts that parameters are met with -/

mutual
/-- Each type parameter that is met, with the part of the argument at its place. An unknown part is
left out. What stands inside a union or a literal is not looked at. -/
def pairings (ds : Definitions) : Ty → Ty → List (String × Ty)
  | _, .unknown => []
  | .param p, argument => [(p.name, argument)]
  | .func ps r, .func ps' r' => pairingsParams ds ps ps' ++ pairings ds r r'
  | .nominal _ name (some args), .nominal id' name' args' =>
    match ds.ancestorArgs? name (.nominal id' name' args') with
    | some (some found) => pairingsList ds args found
    | _ => []
  | _, _ => []

def pairingsList (ds : Definitions) : List Ty → List Ty → List (String × Ty)
  | t :: ts, u :: us => pairings ds t u ++ pairingsList ds ts us
  | _, _ => []

def pairingsParams (ds : Definitions) :
    List (String × Ty) → List (String × Ty) → List (String × Ty)
  | (_, t) :: ps, (_, u) :: qs => pairings ds t u ++ pairingsParams ds ps qs
  | _, _ => []
end

theorem pairingsList_eq (ts us : List Ty) :
    pairingsList ds ts us = (ts.zip us).flatMap fun p => pairings ds p.1 p.2 := by
  induction ts generalizing us with
  | nil => simp [pairingsList]
  | cons t ts ih => cases us <;> simp [pairingsList, ih]

theorem pairingsParams_eq (ps qs : List (String × Ty)) :
    pairingsParams ds ps qs = pairingsList ds (ps.map (·.2)) (qs.map (·.2)) := by
  induction ps generalizing qs with
  | nil => simp [pairingsParams, pairingsList]
  | cons p ps ih => cases qs <;> simp [pairingsParams, pairingsList, ih]

/-- Only a free name is bound. -/
def bindFree (ds : Definitions) (i : Inference) (pair : String × Ty) : Inference :=
  if i.free.contains pair.1 then i.bind ds pair.1 pair.2 else i

/-- A walk that is deep enough binds the pairings from left to right. Either type bounds its depth;
the argument only if what is compared at an ancestor stands inside the argument. -/
theorem inferWithin_eq_foldl
    (hdepth : parameter.height ≤ depth ∨ ds.ArgumentFreeBases ∧ argument.height ≤ depth) :
    inferWithin ds depth parameter argument i =
      (pairings ds parameter argument).foldl (bindFree ds) i := by
  induction depth generalizing parameter argument i with
  | zero =>
    have := parameter.height_pos
    have := argument.height_pos
    omega
  | succ depth ih =>
    have hloop : ∀ {α : Type} (xs : List α) (part part' : α → Ty) (i : Inference),
        (∀ x ∈ xs, (part x).height ≤ depth ∨ ds.ArgumentFreeBases ∧ (part' x).height ≤ depth) →
        xs.foldl (fun i x => inferWithin ds depth (part x) (part' x) i) i =
          (xs.flatMap fun x => pairings ds (part x) (part' x)).foldl (bindFree ds) i := by
      intro α xs part part' i hxs
      rw [List.foldl_flatMap]
      exact List.foldl_ext _ _ _ fun j x hx => ih (hxs x hx)
    have hdown : ∀ {u v : Ty}, u ∈ parameter.components →
        (ds.ArgumentFreeBases → v.height < argument.height) →
        u.height ≤ depth ∨ ds.ArgumentFreeBases ∧ v.height ≤ depth := by
      intro u v hu hv
      have := Ty.height_lt_of_component hu
      refine hdepth.imp (by omega) fun ⟨hbases, hle⟩ => ⟨hbases, ?_⟩
      have := hv hbases
      omega
    unfold inferWithin
    split
    · simp [pairings]
    · rename_i p hknown
      cases argument <;> simp_all [pairings, bindFree]
    · rename_i ps r qs q
      have hmem : ∀ x ∈ ps.zip qs, x.1.2 ∈ (Ty.func ps r).components ∧
          x.2.2 ∈ (Ty.func qs q).components := by
        intro x hx
        obtain ⟨hp, hq⟩ := List.of_mem_zip hx
        exact ⟨.tail _ (List.mem_map_of_mem hp), .tail _ (List.mem_map_of_mem hq)⟩
      rw [pairings, List.foldl_append, pairingsParams_eq, pairingsList_eq, List.zip_map,
        List.flatMap_map, hloop]
      · exact ih (hdown (.head _) fun _ => Ty.height_lt_of_component (t := .func qs q) (.head _))
      · intro x hx
        exact hdown (hmem x hx).1 fun _ => Ty.height_lt_of_component (hmem x hx).2
    · rename_i id name args id' name' args'
      rw [pairings]
      cases hfound : ds.ancestorArgs? name (.nominal id' name' args') with
      | none => rfl
      | some found =>
        cases found with
        | none => rfl
        | some found =>
          simp only [pairingsList_eq]
          refine hloop _ _ _ _ fun x hx => ?_
          obtain ⟨hp, hq⟩ := List.of_mem_zip hx
          exact hdown hp fun hbases => hbases.ancestorArgs_lt hfound _ hq
    · rw [pairings, List.foldl_nil] <;> assumption

theorem forall_pairings {P : Ty → Prop} (hcomponent : ∀ {t c}, P t → c ∈ t.components → P c)
    (hancestor : ∀ {t name ts}, P t → ds.ancestorArgs? name t = some (some ts) → ∀ u ∈ ts, P u)
    {parameter argument : Ty} (ha : P argument) :
    ∀ p ∈ pairings ds parameter argument, P p.2 := by
  have hlist : ∀ {ts us : List Ty},
      (∀ t ∈ ts, ∀ {u}, P u → ∀ p ∈ pairings ds t u, P p.2) → (∀ u ∈ us, P u) →
      ∀ p ∈ pairingsList ds ts us, P p.2 := by
    intro ts us hts hus p hp
    rw [pairingsList_eq] at hp
    obtain ⟨x, hx, hp⟩ := List.mem_flatMap.mp hp
    obtain ⟨hxt, hxu⟩ := List.of_mem_zip hx
    exact hts _ hxt (hus _ hxu) p hp
  induction parameter generalizing argument with
  | unknown | never | literal | union =>
    intro p hp
    cases argument <;> simp [pairings] at hp
  | param q =>
    intro p hp
    cases argument <;> simp only [pairings, List.mem_singleton, List.not_mem_nil] at hp <;>
      exact hp ▸ ha
  | func ps r ihp ihr =>
    cases argument with
    | func qs q =>
      rw [pairings, pairingsParams_eq, List.forall_mem_append]
      refine ⟨hlist (fun t ht => ?_) fun u hu => hcomponent ha (.tail _ hu),
        ihr (hcomponent ha (.head _))⟩
      obtain ⟨p, hp, rfl⟩ := List.mem_map.mp ht
      exact fun hu => ihp p hp hu
    | _ => simp [pairings]
  | nominal id name args ih =>
    cases args with
    | none => cases argument <;> simp [pairings]
    | some ts =>
      cases argument with
      | nominal id' name' args' =>
        rw [pairings]
        split
        · rename_i found hfound
          exact hlist (fun t ht u hu => ih ts rfl t ht hu) (hancestor ha hfound)
        · simp
      | _ => simp [pairings]

/-! ## What a name is bound to -/

/-- One more part joins what a name is bound to. -/
def merge (ds : Definitions) (bound : Option Ty) (part : Ty) : Option Ty :=
  some (match bound with
    | some earlier => ds.commonSupertype earlier part
    | none => part)

/-- The common supertype of all parts, taken from left to right. -/
def join? (ds : Definitions) (parts : List Ty) : Option Ty := parts.foldl (merge ds) none

/-- The parts that a name is met with. -/
def partsOf (name : String) (pairs : List (String × Ty)) : List Ty :=
  pairs.filterMap fun p => if p.1 = name then some p.2 else none

theorem partsOf_cons (name : String) (pair : String × Ty) (pairs : List (String × Ty)) :
    partsOf name (pair :: pairs) =
      (if pair.1 = name then [pair.2] else []) ++ partsOf name pairs := by
  unfold partsOf
  by_cases hname : pair.1 = name <;> simp [hname]

theorem partsOf_append (name : String) (pairs pairs' : List (String × Ty)) :
    partsOf name (pairs ++ pairs') = partsOf name pairs ++ partsOf name pairs' :=
  List.filterMap_append

theorem partsOf_forall {P : Ty → Prop} {pairs : List (String × Ty)} (h : ∀ p ∈ pairs, P p.2) :
    ∀ a ∈ partsOf name pairs, P a := by
  intro a ha
  obtain ⟨p, hp, hpa⟩ := List.mem_filterMap.mp ha
  split at hpa
  · cases hpa
    exact h p hp
  · cases hpa

theorem join?_cons (a : Ty) (parts : List Ty) :
    join? ds (a :: parts) = some (parts.foldl ds.commonSupertype a) := by
  induction parts generalizing a with
  | nil => rfl
  | cons b parts ih => exact ih (ds.commonSupertype a b)

theorem join?_eq_none {parts : List Ty} : join? ds parts = none ↔ parts = [] := by
  cases parts with
  | nil => exact iff_of_true rfl rfl
  | cons a parts => simp [join?_cons]

theorem join?_induct {P : Ty → Prop} {parts : List Ty} {b : Ty} (hparts : ∀ a ∈ parts, P a)
    (hstep : ∀ {a b}, P a → P b → P (ds.commonSupertype a b)) (hb : join? ds parts = some b) :
    P b := by
  cases parts with
  | nil => cases hb
  | cons a parts =>
    obtain ⟨ha, hrest⟩ := List.forall_mem_cons.mp hparts
    obtain rfl := Option.some.inj ((join?_cons a parts).symm.trans hb)
    exact List.foldlRecOn parts ds.commonSupertype ha fun e he c hc => hstep he (hrest c hc)

@[simp] theorem free_bindFree (i : Inference) (pair : String × Ty) :
    (i.bindFree ds pair).free = i.free := by
  unfold bindFree
  split <;> rfl

theorem get?_bindFree (i : Inference) (pair : String × Ty) (name : String) :
    (i.bindFree ds pair).bindings.get? name =
      if pair.1 = name ∧ name ∈ i.free then merge ds (i.bindings.get? name) pair.2
      else i.bindings.get? name := by
  unfold bindFree
  by_cases hfree : pair.1 ∈ i.free
  · rw [if_pos (List.contains_iff_mem.mpr hfree), bind, OrderedMap.get?_insert]
    by_cases hname : pair.1 = name
    · subst hname
      rw [if_pos rfl, if_pos ⟨rfl, hfree⟩]
      cases i.bindings.get? pair.1 <;> rfl
    · simp [hname]
  · have hother : ¬ (pair.1 = name ∧ name ∈ i.free) := fun h => hfree (h.1 ▸ h.2)
    rw [if_neg (by simpa using hfree), if_neg hother]

theorem get?_foldl_bindFree (pairs : List (String × Ty)) (i : Inference) (name : String) :
    (pairs.foldl (bindFree ds) i).bindings.get? name =
      if name ∈ i.free then (partsOf name pairs).foldl (merge ds) (i.bindings.get? name)
      else i.bindings.get? name := by
  induction pairs generalizing i with
  | nil => simp [partsOf]
  | cons pair pairs ih =>
    rw [List.foldl_cons, ih, free_bindFree, get?_bindFree, partsOf_cons]
    by_cases hname : pair.1 = name <;> by_cases hfree : name ∈ i.free <;> simp [hname, hfree]

/-! ## Many arguments -/

/-- Several parameters and arguments one after the other. -/
def inferAll (ds : Definitions) (i : Inference) (calls : List (Ty × Ty)) : Inference :=
  calls.foldl (fun i c => i.infer ds c.1 c.2) i

def allPairings (ds : Definitions) (calls : List (Ty × Ty)) : List (String × Ty) :=
  calls.flatMap fun c => pairings ds c.1 c.2

theorem free_inferAll (i : Inference) (calls : List (Ty × Ty)) :
    (i.inferAll ds calls).free = i.free := by
  induction calls generalizing i with
  | nil => rfl
  | cons c calls ih => exact (ih _).trans (free_infer i c.1 c.2)

theorem inferAll_eq_foldl {calls : List (Ty × Ty)}
    (hdepth : ∀ c ∈ calls, c.1.height ≤ maxRelationDepth + 1 ∨
      ds.ArgumentFreeBases ∧ c.2.height ≤ maxRelationDepth + 1) (i : Inference) :
    i.inferAll ds calls = (allPairings ds calls).foldl (bindFree ds) i := by
  rw [allPairings, List.foldl_flatMap]
  exact List.foldl_ext _ _ _ fun j c hc => inferWithin_eq_foldl (hdepth c hc)

/-- A new inference binds a free name to the common supertype of the parts that it was met with. -/
theorem get?_inferAll {calls : List (Ty × Ty)}
    (hdepth : ∀ c ∈ calls, c.1.height ≤ maxRelationDepth + 1 ∨
      ds.ArgumentFreeBases ∧ c.2.height ≤ maxRelationDepth + 1) (free : List String)
    (name : String) : (inferAll ds ⟨free, .empty⟩ calls).bindings.get? name =
      if name ∈ free then join? ds (partsOf name (allPairings ds calls)) else none := by
  rw [inferAll_eq_foldl hdepth, get?_foldl_bindFree]
  rfl

end ScriptTyping.Inference
