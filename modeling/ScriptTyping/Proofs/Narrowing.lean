import ScriptTyping.Narrowing
import ScriptTyping.Proofs.KnownTypes
import ScriptTyping.Proofs.Transitivity
import ScriptTyping.Proofs.WellFormedTypes

/-!
# What narrowing keeps

Narrowing compares whole types, and takes apart the declared one only. Of the types within the
asserted type it keeps those within a branch of the declared type that is on one side of the asserted
type as a whole. Where the two overlap in part, the part is lost.
-/

namespace ScriptTyping

namespace Ty

variable {t b u : Ty}

/-- The type itself, or a branch of a member of it if it is a union. -/
inductive Branch : Ty → Ty → Prop
  | self (t : Ty) : Branch t t
  | member {members : List Ty} {m b : Ty} (hm : m ∈ members) (h : Branch m b) :
      Branch (.union members) b

theorem Branch.height_le (h : t.Branch b) : b.height ≤ t.height := by
  induction h with
  | self => exact Nat.le_refl _
  | member hm _ ih => exact Nat.le_of_lt (Nat.lt_of_le_of_lt ih (height_lt_of_component hm))

theorem Branch.parts (h : t.Branch b) (hu : u ∈ b.parts) : u ∈ t.parts := by
  induction h with
  | self => exact hu
  | @member members m b hm _ ih =>
    rw [parts_eq, List.mem_cons, List.mem_flatMap]
    exact Or.inr ⟨m, hm, ih hu⟩

/-! ## Heights of unions -/

theorem heightList_le {ts : List Ty} {n : Nat} (h : ∀ t ∈ ts, t.height ≤ n) :
    heightList ts ≤ n := by
  induction ts with
  | nil => simp [heightList]
  | cons t ts ih =>
    rw [heightList]
    exact Nat.max_le.mpr ⟨h t (by simp), ih fun u hu => h u (by simp [hu])⟩

theorem height_of_alternative (h : u ∈ t.alternatives) : u.height ≤ t.height := by
  cases t with
  | union members => exact Nat.le_of_lt (height_lt_of_component h)
  | _ => exact Nat.le_of_eq (congrArg height (List.mem_singleton.mp h))

theorem height_unionOf_le {ts : List Ty} {n : Nat} (h : ∀ t ∈ ts, t.height ≤ n) :
    (unionOf ts).height ≤ n + 1 := by
  have hflat : ∀ u ∈ flatten ts, u.height ≤ n := by
    intro u hu
    obtain ⟨t, ht, hta, -⟩ := exists_of_mem_flatten hu
    exact Nat.le_trans (height_of_alternative hta) (h t ht)
  refine unionOf_cases (P := fun t => t.height ≤ n + 1) ?_ ?_ fun _ => ?_
  · simp [height]
  · exact fun u hu => Nat.le_succ_of_le (hflat u hu)
  · rw [height]
    exact Nat.succ_le_succ (heightList_le hflat)

end Ty

namespace Definitions

open Ty (Alike alike_of_beq)

variable {ds : Definitions} {asserted declared b c : Ty}

/-! ## Narrowing case by case -/

/-- Narrowing types without unknown parts: the two orders of whole types, the members of a union,
and types that are apart. -/
theorem narrow_induct {P : Ty → Ty → Prop} (ha : asserted.Known)
    (within : ∀ d, ds.isAssignable d asserted = true → P d d)
    (specific : ∀ d, ds.isAssignable asserted d = true → P d asserted)
    (members : ∀ ms, ds.isAssignable (.union ms) asserted = false →
      ds.isAssignable asserted (.union ms) = false → (∀ m ∈ ms, P m (ds.narrow asserted m)) →
      P (.union ms) (Ty.unionOf ((ms.map (ds.narrow asserted)).filter fun t => !t.isNever)))
    (apart : ∀ d, d.isUnion = false → ds.isAssignable d asserted = false →
      ds.isAssignable asserted d = false → P d .never) (hd : declared.Known) :
    P declared (ds.narrow asserted declared) := by
  have hordered : ∀ {d rest : Ty}, d.Known → (ds.isAssignable d asserted = false →
      ds.isAssignable asserted d = false → P d rest) →
      P d (if d.isUnknown then asserted else if asserted.isUnknown then d
        else if ds.isAssignable d asserted then d else if ds.isAssignable asserted d then asserted
        else rest) := by
    intro d rest hd hrest
    simp only [ha.not_isUnknown, hd.not_isUnknown, Bool.false_eq_true, if_false]
    split
    · exact within d ‹_›
    · rename_i hnot
      split
      · exact specific d ‹_›
      · rename_i hnot'
        exact hrest (by simpa using hnot) (by simpa using hnot')
  induction declared with
  | union ms ih =>
    unfold narrow
    refine hordered hd fun hnot hnot' => ?_
    dsimp only
    rw [narrowEach_eq_map]
    exact members ms hnot hnot' fun m hm => ih m hm (hd.component hm)
  | _ =>
    unfold narrow
    exact hordered hd (apart _ rfl)

/-- Each union on the way may add a level to the asserted type. -/
theorem height_narrow_le (ha : asserted.Known) (hd : declared.Known) :
    (ds.narrow asserted declared).height ≤ declared.height + asserted.height := by
  refine narrow_induct (P := fun d n => n.height ≤ d.height + asserted.height) ha (fun d _ => by omega)
    (fun d _ => by omega) (fun ms _ _ ih => ?_) (fun d _ _ _ => ?_) hd
  · have hle : ∀ n ∈ (ms.map (ds.narrow asserted)).filter fun t => !t.isNever,
        n.height ≤ Ty.heightList ms + asserted.height := by
      intro n hn
      obtain ⟨m, hm, rfl⟩ := List.mem_map.mp (List.mem_of_mem_filter hn)
      have hm' := Ty.height_le_heightList hm
      have hmn := ih m hm
      omega
    have hunion := Ty.height_unionOf_le hle
    rw [Ty.height]
    omega
  · have hpos := d.height_pos
    rw [Ty.height]
    omega

/-! ## What is kept -/

namespace ArgumentFreeBases

variable (h : ds.ArgumentFreeBases)

include h

theorem not_relatesFully_never (hc : Simple c) : ds.relatesFully c .never = false := by
  rw [h.relatesFully_eq]
  cases c <;> simp_all [relates, Simple]

theorem relatesFully_unionOf (hc : Simple c) (ts : List Ty) :
    ds.relatesFully c (Ty.unionOf ts) = true ↔ ∃ t ∈ ts, ds.relatesFully c t = true := by
  have hnone : ds.relatesFully c (Ty.unionOf ts) = false ↔
      ∀ t ∈ ts, ds.relatesFully c t = false := by
    refine Ty.unionOf_iff (P := fun t => ds.relatesFully c t = false) (fun t u htu => ?_)
      (h.not_relatesFully_never hc) (fun us => ?_) ts
    · rw [h.relatesFully_congr (.refl c) (alike_of_beq htu)]
    · rw [h.relatesFully_eq, ← Bool.not_eq_true, relates_to_union hc]
      simp
  rw [← Bool.not_eq_false, hnone]
  simp

end ArgumentFreeBases

namespace Plain

variable (h : ds.Plain)

include h

theorem not_relatesFully_never (hc : Simple c) : ds.relatesFully c .never = false :=
  h.argumentFreeBases.not_relatesFully_never hc

theorem relatesFully_narrowed_union (hc : Simple c) (ms : List Ty) :
    ds.relatesFully c
        (Ty.unionOf ((ms.map (ds.narrow asserted)).filter fun t => !t.isNever)) = true ↔
      ∃ m ∈ ms, ds.relatesFully c (ds.narrow asserted m) = true := by
  rw [h.argumentFreeBases.relatesFully_unionOf hc]
  constructor
  · rintro ⟨n, hn, hcn⟩
    obtain ⟨m, hm, rfl⟩ := List.mem_map.mp (List.mem_of_mem_filter hn)
    exact ⟨m, hm, hcn⟩
  · rintro ⟨m, hm, hcn⟩
    refine ⟨_, List.mem_filter.mpr ⟨List.mem_map_of_mem hm, ?_⟩, hcn⟩
    cases hnever : ds.narrow asserted m with
    | never => simp [hnever, h.not_relatesFully_never hc] at hcn
    | _ => rfl

theorem relatesFully_of_branch (hc : Simple c) (hb : declared.Branch b)
    (hcb : ds.relatesFully c b = true) : ds.relatesFully c declared = true := by
  induction hb with
  | self => exact hcb
  | @member members m b hm _ ih =>
    rw [h.relatesFully_eq, relates_to_union hc]
    exact ⟨m, hm, ih hcb⟩

/-- What is within the asserted type and a branch on one side of it is kept. -/
theorem narrow_keeps (ha : asserted.Known) (hd : declared.Known) (hc : Simple c)
    (hca : ds.relatesFully c asserted = true) (hb : declared.Branch b)
    (hcb : ds.relatesFully c b = true)
    (hside : ds.isAssignable b asserted = true ∨ ds.isAssignable asserted b = true) :
    ds.relatesFully c (ds.narrow asserted declared) = true := by
  refine narrow_induct (P := fun d n => d.Branch b → ds.relatesFully c n = true) ha
    (fun d _ hb => h.relatesFully_of_branch hc hb hcb) (fun d _ _ => hca)
    (fun ms hnot hnot' ih hb => ?_) (fun d hunion hnot hnot' hb => ?_) hd hb
  · cases hb with
    | self => simp [hnot, hnot'] at hside
    | member hm hb => exact (h.relatesFully_narrowed_union hc ms).mpr ⟨_, hm, ih _ hm hb⟩
  · cases hb with
    | self => simp [hnot, hnot'] at hside
    | member hm hb => cases hunion

theorem branch_of_kept (ha : asserted.Known) (hd : declared.Known) (hc : Simple c)
    (hkept : ds.relatesFully c (ds.narrow asserted declared) = true) :
    ∃ b, declared.Branch b ∧
      (ds.isAssignable b asserted = true ∧ ds.relatesFully c b = true ∨
        ds.isAssignable asserted b = true ∧ ds.relatesFully c asserted = true) := by
  refine narrow_induct (P := fun d n => ds.relatesFully c n = true → ∃ b, d.Branch b ∧
      (ds.isAssignable b asserted = true ∧ ds.relatesFully c b = true ∨
        ds.isAssignable asserted b = true ∧ ds.relatesFully c asserted = true)) ha
    (fun d hle hcd => ⟨d, .self d, Or.inl ⟨hle, hcd⟩⟩)
    (fun d hle hca => ⟨d, .self d, Or.inr ⟨hle, hca⟩⟩)
    (fun ms _ _ ih hkept => ?_) (fun d _ _ _ hkept => ?_) hd hkept
  · obtain ⟨m, hm, hkept⟩ := (h.relatesFully_narrowed_union hc ms).mp hkept
    obtain ⟨b, hb, hside⟩ := ih m hm hkept
    exact ⟨b, .member hm hb, hside⟩
  · simp [h.not_relatesFully_never hc] at hkept

end Plain

/-! ## Guards that lose nothing -/

/-- A type that is named without arguments, a literal, or a type parameter. -/
def Atomic : Ty → Prop
  | .nominal _ _ none | .literal .. | .param _ => True
  | _ => False

namespace Plain

variable (h : ds.Plain) {types : Ty → Prop} (hc : ds.Coherent types)

include h

theorem inherits_chain {i j k : DefId} {n m l : String} (hi : ds.nameOf? i = some n)
    (hj : ds.nameOf? j = some m) (hk : ds.nameOf? k = some l) (hnm : ds.Inherits i n m)
    (hnl : ds.Inherits i n l) : ds.Inherits j m l ∨ ds.Inherits k l m := by
  rcases hnm with rfl | ⟨e, he, hname⟩
  · rw [h.eq_of_nameOf hj hi]
    exact Or.inl hnl
  · obtain rfl := h.eq_of_nameOf hname hj
    rcases hnl with rfl | ⟨f, hf, hname'⟩
    · rw [h.eq_of_nameOf hk hi]
      exact Or.inr (Or.inr ⟨e, he, hname⟩)
    · obtain rfl := h.eq_of_nameOf hname' hk
      rcases ancestors_chain he hf with rfl | hfe | hef
      · exact Or.inl (Or.inl (Option.some.inj (hj.symm.trans hk)))
      · exact Or.inl (Or.inr ⟨f, hfe, hk⟩)
      · exact Or.inr (Or.inr ⟨e, hef, hj⟩)

include hc

theorem ordered_above_nominal {i j k : DefId} {n m l : String} {as bs : Option (List Ty)}
    (hi : types (.nominal i n as)) (hj : types (.nominal j m bs)) (hk : types (.nominal k l none))
    (hb : ds.relatesFully (.nominal i n as) (.nominal j m bs) = true)
    (ha : ds.relatesFully (.nominal i n as) (.nominal k l none) = true) :
    ds.relatesFully (.nominal j m bs) (.nominal k l none) = true ∨
      ds.relatesFully (.nominal k l none) (.nominal j m bs) = true := by
  have hin := hc.named i n as hi
  have hjm := hc.named j m bs hj
  have hkl := hc.named k l none hk
  simp only [h.relatesFully_eq (.nominal _ _ _), relates, h.relatesNominal_iff] at ha hb ⊢
  have hnl : ds.Inherits i n l := ha.elim (·.2) fun hargs => Or.inl hargs.1
  rcases hb with ⟨rfl, hnm⟩ | ⟨rfl, -⟩
  · exact (h.inherits_chain hin hjm hkl hnm hnl).imp (fun hml => Or.inl ⟨trivial, hml⟩)
      fun hlm => Or.inl ⟨rfl, hlm⟩
  · rw [h.eq_of_nameOf hin hjm] at hnl
    exact Or.inl (Or.inl ⟨trivial, hnl⟩)

theorem ordered_above_bare (hbacked : ∀ v x, types (.literal v x) → Simple x) {k : DefId}
    {l : String} (htc : types c) (htb : types b) (hta : types (.nominal k l none)) (hsc : Simple c)
    (hsb : Simple b) (hcb : ds.relatesFully c b = true)
    (hca : ds.relatesFully c (.nominal k l none) = true) :
    ds.relatesFully b (.nominal k l none) = true ∨ ds.relatesFully (.nominal k l none) b = true := by
  induction c with
  | nominal i n as =>
    cases b with
    | nominal j m bs => exact h.ordered_above_nominal hc htc htb hta hcb hca
    | _ =>
      rw [h.relatesFully_eq] at hcb
      simp [relates, Simple] at hcb hsb
  | literal v x ih =>
    have htx := hc.closed _ htc x (.head _)
    have hca' := hca
    rw [h.relatesFully_eq] at hcb hca'
    rw [relates] at hca'
    cases b with
    | nominal j m bs => exact ih htx (hbacked v x htc) hcb hca'
    | literal w y =>
      left
      have hxy := hc.backed v w x y htc htb hcb
      rw [h.relatesFully_congr hxy (.refl _)] at hca'
      rwa [h.relatesFully_eq, relates]
    | _ => simp [relates, Simple] at hcb hsb
  | _ =>
    rw [h.relatesFully_eq] at hca
    simp [relates, Simple] at hca hsc

theorem ordered_above (hbacked : ∀ v x, types (.literal v x) → Simple x) (hatomic : Atomic asserted)
    (htc : types c) (htb : types b) (hta : types asserted) (hsc : Simple c) (hsb : Simple b)
    (hcb : ds.relatesFully c b = true) (hca : ds.relatesFully c asserted = true) :
    ds.relatesFully b asserted = true ∨ ds.relatesFully asserted b = true := by
  cases asserted with
  | nominal k l args =>
    cases args with
    | none => exact h.ordered_above_bare hc hbacked htc htb hta hsc hsb hcb hca
    | some args => exact hatomic.elim
  | literal w y =>
    right
    rw [h.relatesFully_eq] at hca hcb ⊢
    cases c with
    | literal v x =>
      rw [relates] at hca
      cases b with
      | literal u z =>
        rw [relates] at hcb ⊢
        exact LiteralValue.same_trans (LiteralValue.same_symm hca) hcb
      | nominal j m bs =>
        rw [relates] at hcb ⊢
        rwa [h.relatesFully_congr (hc.backed v w x y htc hta hca) (.refl _)] at hcb
      | _ => simp [relates, Simple] at hcb hsb
    | _ => simp [relates, Simple] at hca hsc
  | param p =>
    right
    rw [h.relatesFully_eq] at hca hcb ⊢
    cases c with
    | param q => cases b <;> simp_all [relates, Simple]
    | _ => simp [relates, Simple] at hca hsc
  | _ => exact hatomic.elim

omit hc in
theorem exists_branch (hsc : Simple c) (hcd : ds.relatesFully c declared = true) :
    ∃ b, declared.Branch b ∧ Simple b ∧ ds.relatesFully c b = true := by
  induction declared with
  | union members ih =>
    rw [h.relatesFully_eq, relates_to_union hsc] at hcd
    obtain ⟨m, hm, hcm⟩ := hcd
    obtain ⟨b, hb, hsb, hcb⟩ := ih m hm hcm
    exact ⟨b, .member hm hb, hsb, hcb⟩
  | never => simp [h.not_relatesFully_never hsc] at hcd
  | unknown =>
    rw [h.relatesFully_eq] at hcd
    cases c <;> simp_all [relates, Simple]
  | _ => exact ⟨_, .self _, trivial, hcd⟩

end Plain

theorem narrow_complete_of_atomic (h : ds.Plain) (hatomic : Atomic asserted) (ha : asserted.Known)
    (hd : declared.Known) (hc : Simple c) (hah : asserted.height ≤ 20) (hdh : declared.height ≤ 20)
    (hch : c.height ≤ 20)
    (hnamed : ∀ t ∈ c.parts ++ asserted.parts ++ declared.parts, ds.carriesName t = true)
    (hbacked : ∀ s ∈ c.parts ++ asserted.parts ++ declared.parts,
      ∀ t ∈ c.parts ++ asserted.parts ++ declared.parts, backedAlike s t = true)
    (hbacking : ∀ v x, .literal v x ∈ c.parts ++ asserted.parts ++ declared.parts → Simple x)
    (hcd : ds.isAssignable c declared = true) (hca : ds.isAssignable c asserted = true) :
    ds.isAssignable c (ds.narrow asserted declared) = true := by
  have hlimit : maxRelationDepth = 64 := rfl
  have hnarrow : (ds.narrow asserted declared).height ≤ declared.height + asserted.height :=
    height_narrow_le ha hd
  have hmem : ∀ {t}, t ∈ c.parts ∨ t ∈ asserted.parts ∨ t ∈ declared.parts →
      t ∈ c.parts ++ asserted.parts ++ declared.parts := by simp
  rw [h.isAssignable_eq (by omega)] at hcd hca ⊢
  obtain ⟨b, hb, hsb, hcb⟩ := h.exists_branch hc hcd
  have hbh := hb.height_le
  refine h.narrow_keeps ha hd hc hca hb hcb ?_
  rw [h.isAssignable_eq (by omega), h.isAssignable_eq (by omega)]
  exact h.ordered_above (coherent_of_parts hnamed hbacked) hbacking hatomic
    (hmem (Or.inl (Ty.mem_parts_self c))) (hmem (Or.inr (Or.inr (hb.parts (Ty.mem_parts_self b)))))
    (hmem (Or.inr (Or.inl (Ty.mem_parts_self asserted)))) hc hsb hcb hca

/-- Of the types within the asserted type, narrowing keeps exactly those that are also within a
branch of the declared type that is on one side of the asserted type. -/
theorem narrow_keeps_iff (h : ds.Plain) (ha : asserted.Known) (hd : declared.Known) (hc : Simple c)
    (hah : asserted.height ≤ 20) (hdh : declared.height ≤ 20) (hch : c.height ≤ 20)
    (hnamed : ∀ t ∈ c.parts ++ asserted.parts ++ declared.parts, ds.carriesName t = true)
    (hbacked : ∀ s ∈ c.parts ++ asserted.parts ++ declared.parts,
      ∀ t ∈ c.parts ++ asserted.parts ++ declared.parts, backedAlike s t = true)
    (hca : ds.isAssignable c asserted = true) :
    ds.isAssignable c (ds.narrow asserted declared) = true ↔
      ∃ b, declared.Branch b ∧ ds.isAssignable c b = true ∧
        (ds.isAssignable b asserted = true ∨ ds.isAssignable asserted b = true) := by
  have hlimit : maxRelationDepth = 64 := rfl
  have hnarrow : (ds.narrow asserted declared).height ≤ declared.height + asserted.height :=
    height_narrow_le ha hd
  have hbranch : ∀ {b}, declared.Branch b → ds.isAssignable c b = ds.relatesFully c b := by
    intro b hb
    have hbh := hb.height_le
    exact h.isAssignable_eq (by omega)
  rw [h.isAssignable_eq (by omega)]
  constructor
  · intro hkept
    obtain ⟨b, hb, ⟨hba, hcb⟩ | ⟨hab, -⟩⟩ := h.branch_of_kept ha hd hc hkept
    · exact ⟨b, hb, (hbranch hb).trans hcb, Or.inl hba⟩
    · have hparts : ∀ t ∈ c.parts ++ asserted.parts ++ b.parts,
          t ∈ c.parts ++ asserted.parts ++ declared.parts := by
        intro t ht
        simp only [List.mem_append] at ht ⊢
        exact ht.imp_right hb.parts
      have hbh := hb.height_le
      exact ⟨b, hb, isAssignable_trans h (by omega) (by omega) (by omega)
        (fun t ht => hnamed t (hparts t ht))
        (fun s hs t ht => hbacked s (hparts s hs) t (hparts t ht)) hca hab, Or.inr hab⟩
  · rintro ⟨b, hb, hcb, hside⟩
    rw [h.isAssignable_eq (by omega)] at hca
    rw [hbranch hb] at hcb
    exact h.narrow_keeps ha hd hc hca hb hcb hside

/-- The guard `"a" | true`. -/
def letterOrTrue : Ty := .union [.ofLiteral (.text "a"), .ofLiteral (.boolean true)]

/-- Declared as `"a" | number`, the text `"a"` is kept: it is a branch within the guard. -/
theorem letter_kept_as_branch :
    builtin.isAssignable (.ofLiteral (.text "a"))
      (builtin.narrow letterOrTrue (.union [.ofLiteral (.text "a"), Ty.number])) = true := by
  refine (narrow_keeps_iff (c := .ofLiteral (.text "a")) ⟨by decide, by decide, by decide⟩
    (by decide) (by decide) trivial (by decide) (by decide) (by decide) (by decide) (by decide)
    (by decide)).mpr ?_
  exact ⟨.ofLiteral (.text "a"), .member List.mem_cons_self (.self _), by decide,
    Or.inl (by decide)⟩

/-- Declared as `string`, the text `"a"` is lost, although it is within both types. -/
theorem narrowing_can_lose : ¬ ∀ (ds : Definitions) (declared asserted c : Ty), ds.Plain →
    declared.Known → asserted.Known → c.Known → (declared == declared) = true →
    (asserted == asserted) = true → (c == c) = true → declared.height ≤ 20 →
    asserted.height ≤ 20 → c.height ≤ 20 → ds.isAssignable c declared = true →
    ds.isAssignable c asserted = true →
    ds.isAssignable c (ds.narrow asserted declared) = true := by
  intro hall
  have hlost : builtin.isAssignable (.ofLiteral (.text "a"))
      (builtin.narrow letterOrTrue Ty.string) = false := by decide
  have hkept := hall builtin Ty.string letterOrTrue (.ofLiteral (.text "a"))
    ⟨by decide, by decide, by decide⟩ (by decide) (by decide) (by decide) (by decide) (by decide)
    (by decide) (by decide) (by decide) (by decide) (by decide) (by decide)
  rw [hlost] at hkept
  cases hkept

end Definitions

end ScriptTyping
