import Mathlib.Data.List.Infix
import ScriptTyping.Diagnostic

/-!
# Filled templates

A template is filled one place after another, over the whole text each time. So a place that an
argument brings along is filled as well, if its number is still to come. Otherwise a filled
template is the template with each of its places replaced at once. This asks that no place comes
about across the edge of an argument either, which the templates of the messages rule out.
-/

namespace ScriptTyping

/-! ## Places -/

theorem three_le_length_place (i : Nat) : 3 ≤ (place i).length := by
  have := List.length_pos_iff.mpr (Nat.toDigits_ne_nil (n := i) (b := 10))
  simp only [place, List.length_cons, List.length_append, List.length_nil]
  omega

/-- The number of the place that a text begins with. -/
def placeAt? (text : List Char) : Option Nat :=
  let i := Nat.ofDigitChars 10 (text.tail.takeWhile Char.isDigit) 0
  if (place i).isPrefixOf text then some i else none

theorem isDigit_of_mem_toDigits {i : Nat} {c : Char} (hc : c ∈ Nat.toDigits 10 i) :
    c.isDigit = true :=
  Nat.isDigit_of_mem_toDigits (by omega) (by omega) hc

theorem placeAt?_eq_some {text : List Char} {i : Nat} :
    placeAt? text = some i ↔ place i <+: text := by
  rw [placeAt?]
  constructor
  · intro h
    split at h
    case isTrue hp => exact Option.some.inj h ▸ List.isPrefixOf_iff_prefix.mp hp
    case isFalse => cases h
  · rintro ⟨rest, rfl⟩
    have hdigits : (place i ++ rest).tail.takeWhile Char.isDigit = Nat.toDigits 10 i := by
      simp only [place, List.cons_append, List.tail_cons, List.append_assoc]
      rw [List.takeWhile_append_of_pos fun c hc => isDigit_of_mem_toDigits hc]
      simp [Char.isDigit]
    simp [hdigits, Nat.ofDigitChars_ten_toDigits]

theorem eq_of_place_prefix {text : List Char} {i j : Nat} (hi : place i <+: text)
    (hj : place j <+: text) : i = j :=
  Option.some.inj ((placeAt?_eq_some.mpr hi).symm.trans (placeAt?_eq_some.mpr hj))

theorem place_split {k : Nat} {u v : List Char} (huv : u ++ v = place k) (hu : u ≠ [])
    (hv : v ≠ []) :
    ∃ opened closed, u = '\x7b' :: opened ∧ v = closed ++ ['\x7d'] ∧
      (∀ c ∈ opened, c.isDigit = true) ∧ ∀ c ∈ closed, c.isDigit = true := by
  obtain ⟨c, opened, rfl⟩ := List.exists_cons_of_ne_nil hu
  obtain ⟨rfl, htail⟩ := List.cons.inj huv
  have hdigits : ∃ closed, opened ++ closed = Nat.toDigits 10 k ∧ v = closed ++ ['\x7d'] := by
    rcases List.append_eq_append_iff.mp htail with ⟨closed, hk, hv'⟩ | ⟨rest, hk, hv'⟩
    · exact ⟨closed, hk.symm, hv'⟩
    · obtain rfl : rest = [] := by
        rcases List.append_eq_singleton_iff.mp hv'.symm with ⟨h, _⟩ | ⟨_, h⟩
        · exact h
        · exact absurd h hv
      exact ⟨[], by simpa using hk, by simpa using hv'.symm⟩
  obtain ⟨closed, hk, rfl⟩ := hdigits
  refine ⟨opened, closed, rfl, rfl, fun c hc => ?_, fun c hc => ?_⟩
  · exact isDigit_of_mem_toDigits (hk ▸ List.mem_append_left _ hc)
  · exact isDigit_of_mem_toDigits (hk ▸ List.mem_append_right _ hc)

theorem eq_place_of_suffix {i : Nat} {rest : List Char} (h : '\x7b' :: rest <:+ place i) :
    '\x7b' :: rest = place i := by
  obtain ⟨before, h⟩ := h
  by_cases hbefore : before = []
  · rw [← h, hbefore, List.nil_append]
  · obtain ⟨_, closed, _, hclosed, _, hdigits⟩ := place_split h hbefore (List.cons_ne_nil _ _)
    cases closed with
    | nil => simp at hclosed
    | cons c closed =>
      obtain ⟨rfl, _⟩ := List.cons.inj hclosed
      exact absurd (hdigits _ List.mem_cons_self) (by decide)

theorem eq_of_place_within {i k : Nat} (h : place k <:+: place i) : k = i := by
  obtain ⟨before, after, h⟩ := h
  rw [List.append_assoc] at h
  have heq : place k ++ after = place i := eq_place_of_suffix ⟨before, h⟩
  exact eq_of_place_prefix ⟨after, heq⟩ (List.prefix_refl _)

/-! ## Replacing within two texts that meet -/

/-- No occurrence of the pattern runs from the first text into the second one. -/
def Seam (pattern left right : List Char) : Prop :=
  ∀ u v, u ++ v = pattern → u ≠ [] → v ≠ [] → u <:+ left → ¬ v <+: right

theorem Seam.tail {pattern left right : List Char} {c : Char}
    (h : Seam pattern (c :: left) right) : Seam pattern left right :=
  fun u v huv hu hv hleft => h u v huv hu hv (hleft.trans (List.suffix_cons c left))

/-- At a seam an occurrence is already one of the first text alone. -/
theorem Seam.prefix_left {pattern left right : List Char} (h : Seam pattern left right)
    (hleft : left ≠ []) (hp : pattern <+: left ++ right) : pattern <+: left := by
  obtain ⟨text, htext⟩ := hp
  rcases List.append_eq_append_iff.mp htext with ⟨rest, hl, _⟩ | ⟨rest, hp, hr⟩
  · exact ⟨rest, hl.symm⟩
  · by_cases hrest : rest = []
    · simp [hp, hrest]
    · exact absurd ⟨text, hr.symm⟩ (h left rest hp.symm hleft hrest (List.suffix_refl left))

theorem replaceAll_append {pattern new left right : List Char} (hs : Seam pattern left right)
    {skip : Nat} (hskip : skip ≤ left.length) :
    replaceAll pattern new skip (left ++ right) =
      replaceAll pattern new skip left ++ replaceAll pattern new 0 right := by
  -- What is dropped never reaches the second text, which `hskip` keeps up.
  induction left generalizing skip with
  | nil =>
    obtain rfl : skip = 0 := by simpa using hskip
    simp [replaceAll]
  | cons c left ih =>
    cases skip with
    | succ skip => simpa [replaceAll] using ih hs.tail (by simpa using hskip)
    | zero =>
      have hiff : pattern <+: c :: (left ++ right) ↔ pattern <+: c :: left :=
        ⟨hs.prefix_left (List.cons_ne_nil c left),
          fun h => h.trans (List.prefix_append (c :: left) right)⟩
      simp only [List.cons_append, replaceAll, List.isPrefixOf_iff_prefix, hiff]
      split
      case isTrue h =>
        have hlen := h.length_le
        rw [ih hs.tail (by simp at hlen; omega), List.append_assoc]
      case isFalse => rw [ih hs.tail (Nat.zero_le _), List.cons_append]

theorem replaceAll_of_absent {pattern new text : List Char} (h : ¬ pattern <:+: text) :
    replaceAll pattern new 0 text = text := by
  induction text with
  | nil => rfl
  | cons c rest ih =>
    rw [replaceAll, if_neg, ih fun hr => h (hr.trans (List.suffix_cons c rest).isInfix)]
    exact fun hp => h (List.isPrefixOf_iff_prefix.mp hp).isInfix

theorem replaceAll_of_length_le {pattern new text : List Char} {skip : Nat}
    (h : text.length ≤ skip) : replaceAll pattern new skip text = [] := by
  induction text generalizing skip with
  | nil => cases skip <;> rfl
  | cons c rest ih =>
    cases skip with
    | zero => simp at h
    | succ skip => exact ih (by simpa using h)

theorem replaceAll_place_self (i : Nat) (new : List Char) :
    replaceAll (place i) new 0 (place i) = new := by
  rw [place, replaceAll, if_pos (by simp), replaceAll_of_length_le (by simp), List.append_nil]

/-! ## Templates in pieces -/

/-- A template is made of single characters and of places. -/
inductive Piece
  | char (c : Char)
  | place (i : Nat)
deriving DecidableEq

/-- The pieces of a text; `skip` characters of the last place are still to be dropped. -/
def piecesFrom : Nat → List Char → List Piece
  | _, [] => []
  | skip + 1, _ :: rest => piecesFrom skip rest
  | 0, c :: rest =>
    match placeAt? (c :: rest) with
    | some i => .place i :: piecesFrom ((place i).length - 1) rest
    | none => .char c :: piecesFrom 0 rest

def pieces (template : String) : List Piece := piecesFrom 0 template.toList

/-- A piece with the text `g i` for place `i`. -/
def Piece.text (g : Nat → List Char) : Piece → List Char
  | .char c => [c]
  | .place i => g i

def render (g : Nat → List Char) (ps : List Piece) : List Char := ps.flatMap (Piece.text g)

@[simp] theorem render_nil (g : Nat → List Char) : render g [] = [] := rfl

@[simp] theorem render_cons (g : Nat → List Char) (p : Piece) (ps : List Piece) :
    render g (p :: ps) = p.text g ++ render g ps := rfl

theorem render_piecesFrom (skip : Nat) (text : List Char) :
    render place (piecesFrom skip text) = text.drop skip := by
  fun_induction piecesFrom skip text with
  | case1 => simp
  | case2 skip _ rest ih => simpa using ih
  | case3 c rest i hi ih =>
    have hp := List.prefix_iff_eq_append.mp (placeAt?_eq_some.mp hi)
    have hlen := three_le_length_place i
    rw [render_cons, ih, Piece.text, List.drop_zero]
    conv_rhs => rw [← hp]
    rw [← List.drop_succ_cons, Nat.sub_add_cancel (by omega)]
  | case4 c rest hi ih => simp [ih, Piece.text]

/-- The template with place `i` replaced by argument `i`, for all places at once. -/
def fillTogether (template : String) (args : List String) : String :=
  String.ofList <| render (fun i => (args[i]?.map String.toList).getD (place i)) (pieces template)

/-! ## Filling piece by piece -/

/-- With the texts `g` no place `k` comes about across the edge of a piece. -/
def Apart (k : Nat) (g : Nat → List Char) : List Piece → Prop
  | [] => True
  | p :: ps => Seam (place k) (p.text g) (render g ps) ∧ Apart k g ps

theorem replaceAll_render {k : Nat} {new : List Char} {g : Nat → List Char} {ps : List Piece}
    (h : Apart k g ps) :
    replaceAll (place k) new 0 (render g ps) =
      render (fun i => replaceAll (place k) new 0 (g i)) ps := by
  induction ps with
  | nil => rfl
  | cons p ps ih =>
    rw [render_cons, replaceAll_append h.1 (Nat.zero_le _), ih h.2, render_cons]
    congr 1
    cases p with
    | place i => rfl
    | char c =>
      refine replaceAll_of_absent fun hp => ?_
      have := hp.length_le.trans' (three_le_length_place k)
      simp [Piece.text] at this

theorem fillFrom_append (i : Nat) (args more : List String) (text : List Char) :
    fillFrom i (args ++ more) text = fillFrom (i + args.length) more (fillFrom i args text) := by
  induction args generalizing i text with
  | nil => rfl
  | cons arg args ih =>
    simp only [List.cons_append, fillFrom, ih, List.length_cons]
    congr 1
    omega

theorem fillFrom_take_succ {args : List String} {n : Nat} (hn : n < args.length)
    (text : List Char) :
    fillFrom 0 (args.take (n + 1)) text =
      replaceAll (place n) args[n].toList 0 (fillFrom 0 (args.take n) text) := by
  have hlen : (args.take n).length = n := by simp [hn.le]
  rw [List.take_succ_eq_append_getElem hn, fillFrom_append, hlen, Nat.zero_add]
  rfl

/-- What has become of place `i` once the first `n` arguments are put in. -/
def filled (args : List String) (n i : Nat) : List Char := fillFrom 0 (args.take n) (place i)

/-- No place that is still to be filled ever comes about across the edge of a piece. -/
def Suits (template : String) (args : List String) : Prop :=
  ∀ n < args.length, Apart n (filled args n) (pieces template)

theorem fillFrom_take_template {template : String} {args : List String}
    (h : Suits template args) {n : Nat} (hn : n ≤ args.length) :
    fillFrom 0 (args.take n) template.toList = render (filled args n) (pieces template) := by
  induction n with
  | zero => exact (render_piecesFrom 0 template.toList).symm
  | succ n ih =>
    rw [fillFrom_take_succ hn, ih (by omega), replaceAll_render (h n hn)]
    exact congrArg (render · _) (funext fun i => (fillFrom_take_succ hn (place i)).symm)

theorem fill_eq_render {template : String} {args : List String} (h : Suits template args) :
    fill template args =
      String.ofList (render (filled args args.length) (pieces template)) := by
  rw [← fillFrom_take_template h le_rfl, List.take_length, fill]

/-! ## What a place is filled with -/

theorem fillFrom_of_absent {i : Nat} {args : List String} {text : List Char}
    (h : ∀ j, i ≤ j → j < i + args.length → ¬ place j <:+: text) : fillFrom i args text = text := by
  induction args generalizing i with
  | nil => rfl
  | cons arg args ih =>
    simp only [List.length_cons] at h
    rw [fillFrom, replaceAll_of_absent (h i le_rfl (by omega))]
    exact ih fun j hj hlt => h j (by omega) (by omega)

theorem fillFrom_place_of_ne {i k : Nat} {args : List String} (h : k < i ∨ i + args.length ≤ k) :
    fillFrom i args (place k) = place k :=
  fillFrom_of_absent fun j hj hlt hp => by
    have := eq_of_place_within hp
    omega

/-- A place gets its argument, with the arguments after it filled into that one. -/
theorem fillFrom_place {args : List String} {i : Nat} (hi : i < args.length) :
    fillFrom 0 args (place i) = fillFrom (i + 1) (args.drop (i + 1)) args[i].toList := by
  have hlen : (args.take i).length = i := by simp [hi.le]
  conv_lhs => rw [← List.take_append_drop i args, List.drop_eq_getElem_cons hi]
  rw [fillFrom_append, fillFrom_place_of_ne (.inr (by omega)), hlen, Nat.zero_add, fillFrom,
    replaceAll_place_self]

/-- Every argument stays what it is when the arguments after it are filled in. -/
def Settled (args : List String) : Prop :=
  ∀ i (hi : i < args.length),
    fillFrom (i + 1) (args.drop (i + 1)) args[i].toList = args[i].toList

theorem settled_of_absent {args : List String}
    (h : ∀ i (hi : i < args.length) j, i < j → j < args.length → ¬ place j <:+: args[i].toList) :
    Settled args := by
  refine fun i hi => fillFrom_of_absent fun j hj hlt => h i hi j (by omega) ?_
  rw [List.length_drop] at hlt
  omega

theorem fill_eq_together {template : String} {args : List String} (h : Suits template args)
    (hargs : Settled args) : fill template args = fillTogether template args := by
  rw [fill_eq_render h, fillTogether]
  congr 2
  funext i
  rw [filled, List.take_length]
  by_cases hi : i < args.length
  · rw [fillFrom_place hi, hargs i hi, List.getElem?_eq_getElem hi]
    rfl
  · rw [fillFrom_place_of_ne (.inr (by omega)), List.getElem?_eq_none (by omega)]
    rfl

theorem piecesFrom_of_length_le {skip : Nat} {text : List Char} (h : text.length ≤ skip) :
    piecesFrom skip text = [] := by
  induction text generalizing skip with
  | nil => cases skip <;> rfl
  | cons c rest ih =>
    cases skip with
    | zero => simp at h
    | succ skip => exact ih (by simpa using h)

theorem piecesFrom_place (i : Nat) : piecesFrom 0 (place i) = [.place i] := by
  have hi : placeAt? (place i) = some i := placeAt?_eq_some.mpr (List.prefix_refl _)
  rw [place] at hi ⊢
  rw [piecesFrom, hi]
  simp only
  rw [piecesFrom_of_length_le (by simp [place])]

/-- The templates that suit the arguments are filled as if all at once iff every argument stays
what it is when the arguments after it are filled in. -/
theorem fill_together_iff (args : List String) :
    (∀ template, Suits template args → fill template args = fillTogether template args) ↔
      Settled args := by
  refine ⟨fun h i hi => ?_, fun h template hs => fill_eq_together hs h⟩
  -- The template that is nothing but place `i` shows what becomes of argument `i`.
  have hpieces : pieces (String.ofList (place i)) = [.place i] := by
    rw [pieces, String.toList_ofList, piecesFrom_place]
  have hs : Suits (String.ofList (place i)) args := by
    intro n _
    rw [hpieces]
    exact ⟨fun u v _ _ hv _ hr => hv (List.prefix_nil.mp hr), trivial⟩
  have hfill := congrArg String.toList (h _ hs)
  rw [fill, fillTogether, hpieces, String.toList_ofList, String.toList_ofList,
    String.toList_ofList, fillFrom_place hi] at hfill
  simpa [Piece.text, List.getElem?_eq_getElem hi] using hfill

/-- An argument that names a later place gets the later argument there. -/
theorem fill_can_cascade :
    ¬ ∀ template args, fill template args = fillTogether template args := fun h =>
  absurd (h Message.argumentNotAssignable.template ["\"\x7b1\x7d\"", "number"]) (by decide)

/-! ## Templates that suit all arguments -/

/-- After their first digits the pieces neither close a place nor begin with one. -/
def calm : List Piece → Bool
  | [] => true
  | .place _ :: _ => false
  | .char c :: ps => if c.isDigit then calm ps else c != '\x7d'

/-- No brace opens outside of a place, and what comes after a place is calm. -/
def tidy : List Piece → Bool
  | [] => true
  | .place _ :: ps => calm ps && tidy ps
  | .char c :: ps => c != '\x7b' && tidy ps

theorem not_closed_of_calm {g : Nat → List Char} {ps : List Piece} (h : calm ps = true)
    {closed : List Char} (hdigits : ∀ c ∈ closed, c.isDigit = true) :
    ¬ closed ++ ['\x7d'] <+: render g ps := by
  induction ps generalizing closed with
  | nil => simp
  | cons p ps ih =>
    cases p with
    | place => simp [calm] at h
    | char c =>
      rw [render_cons, Piece.text, List.singleton_append]
      rw [calm] at h
      cases closed with
      | nil =>
        intro hp
        obtain ⟨rfl, _⟩ := List.cons_prefix_cons.mp hp
        simp [Char.isDigit] at h
      | cons d closed =>
        intro hp
        obtain ⟨rfl, hrest⟩ := List.cons_prefix_cons.mp hp
        rw [if_pos (hdigits d List.mem_cons_self)] at h
        exact ih h (fun c hc => hdigits c (List.mem_cons_of_mem d hc)) hrest

theorem apart_of_tidy {ps : List Piece} (h : tidy ps = true) (k : Nat) (g : Nat → List Char) :
    Apart k g ps := by
  induction ps with
  | nil => trivial
  | cons p ps ih =>
    cases p with
    | place i =>
      simp only [tidy, Bool.and_eq_true] at h
      refine ⟨fun u v huv hu hv _ => ?_, ih h.2⟩
      obtain ⟨_, closed, _, rfl, _, hdigits⟩ := place_split huv hu hv
      exact not_closed_of_calm h.1 hdigits
    | char c =>
      simp only [tidy, Bool.and_eq_true, bne_iff_ne] at h
      refine ⟨fun u v huv hu hv hleft => ?_, ih h.2⟩
      obtain ⟨opened, _, rfl, _, _, _⟩ := place_split huv hu hv
      exact absurd (List.mem_singleton.mp (hleft.subset List.mem_cons_self)).symm h.1

theorem suits_of_tidy {template : String} (h : tidy (pieces template) = true)
    (args : List String) : Suits template args :=
  fun n _ => apart_of_tidy h n _

theorem tidy_ofList {text : List Char} (h : tidy (piecesFrom 0 text) = true) :
    tidy (pieces (String.ofList text)) = true := by
  rwa [pieces, String.toList_ofList]

theorem Message.tidy_template : ∀ m ∈ Message.all, tidy (pieces m.template) = true := by
  simp only [Message.all, List.forall_mem_cons]
  and_intros
  -- Each template is given as its list of characters, which spares decoding it.
  all_goals first
    | exact tidy_ofList (by decide)
    | exact fun _ h => absurd h List.not_mem_nil

theorem Diagnostic.ofMessage_message {m : Message} (hm : m ∈ Message.all) (span : Span)
    {args : List String}
    (h : ∀ i (hi : i < args.length) j, i < j → j < args.length → ¬ place j <:+: args[i].toList) :
    (Diagnostic.ofMessage span m args).message = fillTogether m.template args :=
  fill_eq_together (suits_of_tidy (Message.tidy_template m hm) args) (settled_of_absent h)

/-! ## Arguments that suit all templates -/

/-- A text that has no part in any place: it begins with what cannot stand within one, does not
end in the beginning of one and contains none. -/
structure Sealed (text : List Char) : Prop where
  begins : ∃ c rest, text = c :: rest ∧ c.isDigit = false ∧ c ≠ '\x7d'
  ends : ∀ opened, (∀ c ∈ opened, c.isDigit = true) → ¬ '\x7b' :: opened <:+ text
  inside : ∀ k, ¬ place k <:+: text

theorem sealed_of_not_mem {c : Char} {rest : List Char} (hdigit : c.isDigit = false)
    (hopen : '\x7b' ∉ c :: rest) (hclose : '\x7d' ∉ c :: rest) : Sealed (c :: rest) where
  begins := ⟨c, rest, rfl, hdigit, fun hc => hclose (hc ▸ List.mem_cons_self)⟩
  ends := fun _ _ h => hopen (h.subset List.mem_cons_self)
  inside := fun _ h => hopen (h.subset List.mem_cons_self)

/-- Texts that begin like no rest of a place let such a rest only stand in the template itself. -/
theorem prefix_template {g : Nat → List Char} {ps : List Piece} {v : List Char}
    (hg : ∀ i, ∃ c rest, g i = c :: rest ∧ c.isDigit = false ∧ c ≠ '\x7d')
    (hv : ∀ c ∈ v, c.isDigit = true ∨ c = '\x7d') (h : v <+: render g ps) :
    v <+: render place ps := by
  induction ps generalizing v with
  | nil => exact h
  | cons p ps ih =>
    cases v with
    | nil => exact List.nil_prefix
    | cons d v =>
      cases p with
      | char c =>
        obtain ⟨hd, hrest⟩ := List.cons_prefix_cons.mp h
        have hv' : ∀ c ∈ v, c.isDigit = true ∨ c = '\x7d' := fun c hc =>
          hv c (List.mem_cons_of_mem d hc)
        exact List.cons_prefix_cons.mpr ⟨hd, ih hv' hrest⟩
      | place i =>
        obtain ⟨c, rest, hi, hdigit, hclose⟩ := hg i
        rw [render_cons, Piece.text, hi] at h
        obtain ⟨rfl, _⟩ := List.cons_prefix_cons.mp h
        rcases hv d List.mem_cons_self with h' | h'
        · simp [h'] at hdigit
        · exact absurd h' hclose

theorem apart_of_sealed (k : Nat) {g : Nat → List Char}
    (hg : ∀ i, Sealed (g i) ∨ g i = place i) (skip : Nat) (text : List Char) :
    Apart k g (piecesFrom skip text) := by
  have hbegins : ∀ i, ∃ c rest, g i = c :: rest ∧ c.isDigit = false ∧ c ≠ '\x7d' := fun i =>
    (hg i).elim Sealed.begins fun hi => ⟨_, _, hi, by decide, by decide⟩
  fun_induction piecesFrom skip text with
  | case1 => trivial
  | case2 _ _ _ ih => exact ih
  | case3 c rest i hi ih =>
    refine ⟨fun u v huv hu hv hleft => ?_, ih⟩
    obtain ⟨opened, _, rfl, _, hopened, _⟩ := place_split huv hu hv
    rcases hg i with hsealed | hplace
    · exact absurd hleft (hsealed.ends opened hopened)
    · have heq := eq_place_of_suffix (hplace ▸ hleft : '\x7b' :: opened <:+ place i)
      obtain rfl : i = k := eq_of_place_prefix ⟨v, heq ▸ huv⟩ (List.prefix_refl _)
      exact absurd (List.append_right_eq_self.mp (huv.trans heq.symm)) hv
  | case4 c rest hnone ih =>
    refine ⟨fun u v huv hu hv hleft hright => ?_, ih⟩
    obtain ⟨opened, closed, rfl, rfl, _, hclosed⟩ := place_split huv hu hv
    have hv : ∀ d ∈ closed ++ ['\x7d'], d.isDigit = true ∨ d = '\x7d' := fun d hd =>
      (List.mem_append.mp hd).imp (hclosed d) List.mem_singleton.mp
    -- The place would stand in the template, and would have been read as a place there.
    have htext := prefix_template hbegins hv hright
    rw [render_piecesFrom, List.drop_zero] at htext
    obtain ⟨rfl, rfl⟩ := List.cons.inj (hleft.sublist.eq_of_length_le (by simp [Piece.text]))
    have hk : place k <+: '\x7b' :: rest := huv ▸ List.cons_prefix_cons.mpr ⟨rfl, htext⟩
    simp [placeAt?_eq_some.mpr hk] at hnone

theorem fill_together_of_sealed {args : List String} (h : ∀ arg ∈ args, Sealed arg.toList)
    (template : String) : fill template args = fillTogether template args := by
  have hsettled : ∀ more ⊆ args, Settled more := fun more hmore =>
    settled_of_absent fun i hi j _ _ => (h _ (hmore (List.getElem_mem hi))).inside j
  refine fill_eq_together (fun n hn => ?_) (hsettled args (List.Subset.refl _))
  refine apart_of_sealed n (fun i => ?_) 0 template.toList
  have hsub : args.take n ⊆ args := List.take_subset n args
  by_cases hi : i < (args.take n).length
  · rw [filled, fillFrom_place hi, hsettled _ hsub i hi]
    exact .inl (h _ (hsub (List.getElem_mem hi)))
  · exact .inr (fillFrom_place_of_ne (.inr (by omega)))

end ScriptTyping
