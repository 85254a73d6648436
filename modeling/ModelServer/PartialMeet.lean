import Mathlib.Data.List.Forall2
import Mathlib.Data.List.Perm.Basic
import Mathlib.Data.Set.Prod
import Mathlib.Tactic.Common

/-- A partial meet of descriptions. A description stands for what it allows, the meet of two descriptions for what both
allow, and two descriptions without a meet allow nothing together. -/
structure PartialMeet {α γ : Type*} (meet : α → α → Option α) (valid : α → Prop) (allowed : α → Set γ) : Prop where
  nonempty : ∀ a, valid a → (allowed a).Nonempty
  injective : ∀ a b, valid a → valid b → allowed a = allowed b → a = b
  closed : ∀ a b c, valid a → valid b → meet a b = some c → valid c
  inter : ∀ a b c, valid a → valid b → meet a b = some c → allowed c = allowed a ∩ allowed b
  disjoint : ∀ a b, valid a → valid b → meet a b = none → allowed a ∩ allowed b = ∅

namespace PartialMeet

variable {α β γ δ : Type*} {meet : α → α → Option α} {valid : α → Prop} {allowed : α → Set γ}

section Prod

variable {meet' : β → β → Option β} {valid' : β → Prop} {allowed' : β → Set δ}

def prodMeet (meet : α → α → Option α) (meet' : β → β → Option β) (p q : α × β) : Option (α × β) :=
  (meet p.1 q.1).bind fun a => (meet' p.2 q.2).map fun b => (a, b)

theorem prodMeet_eq_some {p q r : α × β} :
    prodMeet meet meet' p q = some r ↔ meet p.1 q.1 = some r.1 ∧ meet' p.2 q.2 = some r.2 := by
  unfold prodMeet
  obtain ⟨a, b⟩ := r
  cases meet p.1 q.1 <;> cases meet' p.2 q.2 <;> simp

theorem prodMeet_eq_none {p q : α × β} : prodMeet meet meet' p q = none ↔ meet p.1 q.1 = none ∨ meet' p.2 q.2 = none := by
  unfold prodMeet
  cases meet p.1 q.1 <;> cases meet' p.2 q.2 <;> simp

/-- Descriptions of two things. -/
theorem prod (h : PartialMeet meet valid allowed) (h' : PartialMeet meet' valid' allowed') :
    PartialMeet (prodMeet meet meet') (fun p => valid p.1 ∧ valid' p.2) fun p => allowed p.1 ×ˢ allowed' p.2 := by
  constructor
  · intro p hp
    exact (h.nonempty p.1 hp.1).prod (h'.nonempty p.2 hp.2)
  · intro p q hp hq heq
    have hne := (h.nonempty p.1 hp.1).prod (h'.nonempty p.2 hp.2)
    obtain ⟨hfst, hsnd⟩ := (Set.prod_eq_prod_iff_of_nonempty hne).mp heq
    exact Prod.ext (h.injective _ _ hp.1 hq.1 hfst) (h'.injective _ _ hp.2 hq.2 hsnd)
  · intro p q r hp hq hmeet
    obtain ⟨hfst, hsnd⟩ := prodMeet_eq_some.mp hmeet
    exact ⟨h.closed _ _ _ hp.1 hq.1 hfst, h'.closed _ _ _ hp.2 hq.2 hsnd⟩
  · intro p q r hp hq hmeet
    obtain ⟨hfst, hsnd⟩ := prodMeet_eq_some.mp hmeet
    rw [h.inter _ _ _ hp.1 hq.1 hfst, h'.inter _ _ _ hp.2 hq.2 hsnd, Set.prod_inter_prod]
  · intro p q hp hq hmeet
    rw [Set.prod_inter_prod, Set.prod_eq_empty_iff]
    exact (prodMeet_eq_none.mp hmeet).imp (h.disjoint _ _ hp.1 hq.1) (h'.disjoint _ _ hp.2 hq.2)

end Prod

section List

def listMeet (meet : α → α → Option α) : List α → List α → Option (List α)
  | [], [] => some []
  | a :: as, b :: bs => (meet a b).bind fun c => (listMeet meet as bs).map (c :: ·)
  | _, _ => none

/-- What a list of descriptions allows, one after the other. -/
def listAllowed (allowed : α → Set γ) (as : List α) : Set (List γ) :=
  {gs | List.Forall₂ (fun a g => g ∈ allowed a) as gs}

theorem listMeet_eq_some {a b : α} {as bs cs : List α} : listMeet meet (a :: as) (b :: bs) = some cs ↔
    ∃ c rest, cs = c :: rest ∧ meet a b = some c ∧ listMeet meet as bs = some rest := by
  rw [listMeet]
  cases meet a b <;> cases listMeet meet as bs <;> simp [eq_comm]

theorem length_of_allowed {as : List α} {gs : List γ} (h : gs ∈ listAllowed allowed as) : gs.length = as.length :=
  (List.Forall₂.length_eq h).symm

theorem mem_listAllowed_cons {a : α} {as : List α} {g : γ} {gs : List γ} :
    g :: gs ∈ listAllowed allowed (a :: as) ↔ g ∈ allowed a ∧ gs ∈ listAllowed allowed as :=
  List.forall₂_cons

theorem listAllowed_nonempty (h : PartialMeet meet valid allowed) {as : List α} (has : ∀ a ∈ as, valid a) :
    (listAllowed allowed as).Nonempty := by
  induction as with
  | nil => exact ⟨[], .nil⟩
  | cons a as ih =>
    obtain ⟨g, hg⟩ := h.nonempty a (has a List.mem_cons_self)
    obtain ⟨gs, hgs⟩ := ih fun a' hm => has a' (List.mem_cons_of_mem _ hm)
    exact ⟨g :: gs, mem_listAllowed_cons.mpr ⟨hg, hgs⟩⟩

theorem listAllowed_injective (h : PartialMeet meet valid allowed) {as bs : List α} (has : ∀ a ∈ as, valid a)
    (hbs : ∀ b ∈ bs, valid b) (heq : listAllowed allowed as = listAllowed allowed bs) : as = bs := by
  induction as generalizing bs with
  | nil =>
    have hnil : [] ∈ listAllowed allowed bs := heq ▸ List.Forall₂.nil
    exact (List.length_eq_zero_iff.mp (length_of_allowed hnil).symm).symm
  | cons a as ih =>
    obtain ⟨g, hg⟩ := h.nonempty a (has a List.mem_cons_self)
    obtain ⟨gs, hgs⟩ := h.listAllowed_nonempty fun a' hm => has a' (List.mem_cons_of_mem _ hm)
    have hboth : g :: gs ∈ listAllowed allowed bs := heq ▸ mem_listAllowed_cons.mpr ⟨hg, hgs⟩
    cases bs with
    | nil => exact absurd (length_of_allowed hboth) (by simp)
    | cons b bs =>
      obtain ⟨hg', hgs'⟩ := mem_listAllowed_cons.mp hboth
      have hhead : allowed a = allowed b := by
        ext x
        have hx : x :: gs ∈ listAllowed allowed (a :: as) ↔ x :: gs ∈ listAllowed allowed (b :: bs) := by rw [heq]
        rw [mem_listAllowed_cons, mem_listAllowed_cons] at hx
        simpa [hgs, hgs'] using hx
      have htail : listAllowed allowed as = listAllowed allowed bs := by
        ext xs
        have hxs : g :: xs ∈ listAllowed allowed (a :: as) ↔ g :: xs ∈ listAllowed allowed (b :: bs) := by rw [heq]
        rw [mem_listAllowed_cons, mem_listAllowed_cons] at hxs
        simpa [hg, hg'] using hxs
      rw [h.injective a b (has a List.mem_cons_self) (hbs b List.mem_cons_self) hhead,
        ih (fun a' hm => has a' (List.mem_cons_of_mem _ hm)) (fun b' hm => hbs b' (List.mem_cons_of_mem _ hm)) htail]

theorem listMeet_inter (h : PartialMeet meet valid allowed) {as bs cs : List α} (has : ∀ a ∈ as, valid a)
    (hbs : ∀ b ∈ bs, valid b) (hmeet : listMeet meet as bs = some cs) :
    (∀ c ∈ cs, valid c) ∧ listAllowed allowed cs = listAllowed allowed as ∩ listAllowed allowed bs := by
  induction as generalizing bs cs with
  | nil =>
    cases bs with
    | nil =>
      cases hmeet
      simp
    | cons => cases hmeet
  | cons a as ih =>
    cases bs with
    | nil => cases hmeet
    | cons b bs =>
      obtain ⟨c, rest, rfl, hhead, htail⟩ := listMeet_eq_some.mp hmeet
      have ha := has a List.mem_cons_self
      have hb := hbs b List.mem_cons_self
      obtain ⟨hvalid, hinter⟩ := ih (fun a' hm => has a' (List.mem_cons_of_mem _ hm))
        (fun b' hm => hbs b' (List.mem_cons_of_mem _ hm)) htail
      constructor
      · intro c' hm
        rcases List.mem_cons.mp hm with rfl | hm
        · exact h.closed a b c' ha hb hhead
        · exact hvalid c' hm
      · ext gs
        cases gs with
        | nil => simp [listAllowed]
        | cons g gs =>
          rw [Set.mem_inter_iff, mem_listAllowed_cons, mem_listAllowed_cons, mem_listAllowed_cons, hinter,
            h.inter a b c ha hb hhead, Set.mem_inter_iff, Set.mem_inter_iff]
          tauto

theorem listMeet_disjoint (h : PartialMeet meet valid allowed) {as bs : List α} (has : ∀ a ∈ as, valid a)
    (hbs : ∀ b ∈ bs, valid b) (hmeet : listMeet meet as bs = none) :
    listAllowed allowed as ∩ listAllowed allowed bs = ∅ := by
  rw [Set.eq_empty_iff_forall_notMem]
  rintro gs ⟨hgs, hgs'⟩
  induction as generalizing bs gs with
  | nil =>
    cases bs with
    | nil => cases hmeet
    | cons =>
      have hlength := (length_of_allowed hgs).symm.trans (length_of_allowed hgs')
      cases hlength
  | cons a as ih =>
    cases bs with
    | nil =>
      have hlength := (length_of_allowed hgs).symm.trans (length_of_allowed hgs')
      cases hlength
    | cons b bs =>
      cases gs with
      | nil => exact absurd (length_of_allowed hgs) (by simp)
      | cons g gs =>
        obtain ⟨hg, hrest⟩ := mem_listAllowed_cons.mp hgs
        obtain ⟨hg', hrest'⟩ := mem_listAllowed_cons.mp hgs'
        rw [listMeet] at hmeet
        cases hhead : meet a b with
        | none =>
          have hempty := h.disjoint a b (has a List.mem_cons_self) (hbs b List.mem_cons_self) hhead
          exact Set.eq_empty_iff_forall_notMem.mp hempty g ⟨hg, hg'⟩
        | some c =>
          rw [hhead] at hmeet
          exact ih (fun a' hm => has a' (List.mem_cons_of_mem _ hm)) (fun b' hm => hbs b' (List.mem_cons_of_mem _ hm))
            (Option.map_eq_none_iff.mp hmeet) gs hrest hrest'

/-- Lists of descriptions. -/
theorem list (h : PartialMeet meet valid allowed) :
    PartialMeet (listMeet meet) (fun as => ∀ a ∈ as, valid a) (listAllowed allowed) where
  nonempty := fun _ has => h.listAllowed_nonempty has
  injective := fun _ _ has hbs heq => h.listAllowed_injective has hbs heq
  closed := fun _ _ _ has hbs hmeet => (h.listMeet_inter has hbs hmeet).1
  inter := fun _ _ _ has hbs hmeet => (h.listMeet_inter has hbs hmeet).2
  disjoint := fun _ _ has hbs hmeet => h.listMeet_disjoint has hbs hmeet

end List

/-- Fewer descriptions, with their meets among them. -/
theorem restrict (h : PartialMeet meet valid allowed) {fewer : α → Prop}
    (hclosed : ∀ a b c, valid a ∧ fewer a → valid b ∧ fewer b → meet a b = some c → fewer c) :
    PartialMeet meet (fun a => valid a ∧ fewer a) allowed where
  nonempty := fun a ha => h.nonempty a ha.1
  injective := fun a b ha hb => h.injective a b ha.1 hb.1
  closed := fun a b c ha hb hmeet => ⟨h.closed a b c ha.1 hb.1 hmeet, hclosed a b c ha hb hmeet⟩
  inter := fun a b c ha hb => h.inter a b c ha.1 hb.1
  disjoint := fun a b ha hb => h.disjoint a b ha.1 hb.1

section Resolve

variable {ρ : Type*} {write : ρ → Option α} {read : α → ρ}

/-- A text is merged into another one. Texts that are equal are left as they are; others are written out first. -/
def merge [DecidableEq ρ] (meet : α → α → Option α) (write : ρ → Option α) (read : α → ρ) (merged text : ρ) : Option ρ :=
  if merged = text then some text
  else (write merged).bind fun a => (write text).bind fun b => (meet a b).map read

/-- What a text allows when it is written out. -/
def textAllowed (write : ρ → Option α) (allowed : α → Set γ) (text : ρ) : Set γ :=
  {g | ∃ a, write text = some a ∧ g ∈ allowed a}

/-- What all texts allow. -/
def allAllowed (write : ρ → Option α) (allowed : α → Set γ) (texts : List ρ) : Set γ :=
  {g | ∀ text ∈ texts, g ∈ textAllowed write allowed text}

/-- What the texts have been merged to. -/
inductive Merged (write : ρ → Option α) (read : α → ρ) (valid : α → Prop) (allowed : α → Set γ) (texts : List ρ) :
    ρ → Prop
  | same {text : ρ} : text ∈ texts → (∀ other ∈ texts, other = text) → Merged write read valid allowed texts text
  | met {a : α} : valid a → allowed a = allAllowed write allowed texts → (∃ text ∈ texts, ∃ other ∈ texts, other ≠ text) →
      Merged write read valid allowed texts (read a)

/-- Texts that are not all the same and allow nothing together. -/
def Conflict (write : ρ → Option α) (allowed : α → Set γ) (texts : List ρ) : Prop :=
  allAllowed write allowed texts = ∅ ∧ ∃ text ∈ texts, ∃ other ∈ texts, other ≠ text

variable {merged text : ρ} {texts texts' : List ρ}

theorem textAllowed_of_write {a : α} (h : write text = some a) : textAllowed write allowed text = allowed a := by
  ext g
  simp [textAllowed, h]

theorem mem_allAllowed_cons {g : γ} :
    g ∈ allAllowed write allowed (text :: texts) ↔ g ∈ textAllowed write allowed text ∧ g ∈ allAllowed write allowed texts :=
  List.forall_mem_cons

theorem Merged.congr (h : Merged write read valid allowed texts merged) (hsame : ∀ text, text ∈ texts ↔ text ∈ texts') :
    Merged write read valid allowed texts' merged := by
  cases h with
  | same hm hall => exact .same ((hsame _).mp hm) fun other hother => hall other ((hsame other).mpr hother)
  | met hvalid hallowed hne =>
    refine .met hvalid ?_ (by simpa [hsame] using hne)
    rw [hallowed]
    ext g
    simp [allAllowed, hsame]

/-- Texts that are all the same allow what one of them allows. -/
theorem allAllowed_same (hm : text ∈ texts) (hall : ∀ other ∈ texts, other = text) :
    allAllowed write allowed texts = textAllowed write allowed text := by
  ext g
  constructor
  · exact fun hg => hg text hm
  · intro hg other hother
    rw [hall other hother]
    exact hg

theorem Merged.allowed_of_write (h : Merged write read valid allowed texts merged)
    (hread : ∀ a, valid a → write (read a) = some a) {a : α} (hwrite : write merged = some a) :
    allowed a = allAllowed write allowed texts := by
  cases h with
  | same hm hall => rw [allAllowed_same hm hall, textAllowed_of_write hwrite]
  | met hvalid hallowed =>
    rw [hread _ hvalid] at hwrite
    cases hwrite
    exact hallowed

theorem Conflict.mono (h : Conflict write allowed texts) (hsubset : ∀ text ∈ texts, text ∈ texts') :
    Conflict write allowed texts' := by
  obtain ⟨hempty, text, hm, other, hother, hne⟩ := h
  refine ⟨?_, text, hsubset text hm, other, hsubset other hother, hne⟩
  rw [Set.eq_empty_iff_forall_notMem] at hempty ⊢
  exact fun g hg => hempty g fun text hm => hg text (hsubset text hm)

theorem Merged.unique {merged' : ρ} (h : Merged write read valid allowed texts merged)
    (h' : Merged write read valid allowed texts merged') (hmeet : PartialMeet meet valid allowed) : merged = merged' := by
  cases h with
  | same hm hall =>
    cases h' with
    | same hm' => exact (hall _ hm').symm
    | met _ _ hdiffer =>
      obtain ⟨one, hone, other, hother, hne⟩ := hdiffer
      exact absurd ((hall other hother).trans (hall one hone).symm) hne
  | @met a hvalid hallowed hdiffer =>
    cases h' with
    | same hm' hall' =>
      obtain ⟨one, hone, other, hother, hne⟩ := hdiffer
      exact absurd ((hall' other hother).trans (hall' one hone).symm) hne
    | @met b hvalid' hallowed' =>
      rw [hmeet.injective a b hvalid hvalid' (hallowed.trans hallowed'.symm)]

theorem Merged.not_conflict (h : Merged write read valid allowed texts merged) (hmeet : PartialMeet meet valid allowed) :
    ¬ Conflict write allowed texts := by
  rintro ⟨hempty, one, hone, other, hother, hne⟩
  cases h with
  | same hm hall => exact hne ((hall other hother).trans (hall one hone).symm)
  | @met a hvalid hallowed =>
    obtain ⟨g, hg⟩ := hmeet.nonempty a hvalid
    rw [hallowed, hempty] at hg
    exact hg

variable [DecidableEq ρ]

theorem Merged.merge (h : Merged write read valid allowed texts merged) (hmeet : PartialMeet meet valid allowed)
    (hwrite : ∀ text a, write text = some a → valid a) (hread : ∀ a, valid a → write (read a) = some a) {next : ρ}
    (hnext : merge meet write read merged text = some next) : Merged write read valid allowed (text :: texts) next := by
  unfold PartialMeet.merge at hnext
  split at hnext
  next heq =>
    cases hnext
    subst heq
    cases h with
    | same hm hall =>
      apply Merged.same List.mem_cons_self
      intro other hother
      rcases List.mem_cons.mp hother with rfl | hother
      · rfl
      · exact hall other hother
    | @met a hvalid hallowed hne =>
      refine .met hvalid ?_ ?_
      · ext g
        rw [mem_allAllowed_cons, textAllowed_of_write (hread a hvalid), ← hallowed, and_self]
      · obtain ⟨one, hone, other, hother, hne⟩ := hne
        exact ⟨one, List.mem_cons_of_mem _ hone, other, List.mem_cons_of_mem _ hother, hne⟩
  next hne =>
    obtain ⟨a, ha, hnext⟩ := Option.bind_eq_some_iff.mp hnext
    obtain ⟨b, hb, hnext⟩ := Option.bind_eq_some_iff.mp hnext
    obtain ⟨c, hc, rfl⟩ := Option.map_eq_some_iff.mp hnext
    have hinter := hmeet.inter a b c (hwrite _ _ ha) (hwrite _ _ hb) hc
    refine .met (hmeet.closed a b c (hwrite _ _ ha) (hwrite _ _ hb) hc) ?_ ?_
    · ext g
      rw [hinter, mem_allAllowed_cons, textAllowed_of_write hb, ← h.allowed_of_write hread ha, Set.mem_inter_iff]
      exact and_comm
    · cases h with
      | same hm => exact ⟨text, List.mem_cons_self, merged, List.mem_cons_of_mem _ hm, hne⟩
      | met _ _ hdiffer =>
        obtain ⟨one, hone, other, hother, hne⟩ := hdiffer
        exact ⟨one, List.mem_cons_of_mem _ hone, other, List.mem_cons_of_mem _ hother, hne⟩

/-- Texts that cannot be merged allow nothing together, and are not all the same. -/
theorem Merged.merge_none (h : Merged write read valid allowed texts merged) (hmeet : PartialMeet meet valid allowed)
    (hwrite : ∀ text a, write text = some a → valid a) (hread : ∀ a, valid a → write (read a) = some a)
    (hnone : PartialMeet.merge meet write read merged text = none) : Conflict write allowed (text :: texts) := by
  unfold PartialMeet.merge at hnone
  split at hnone
  next => cases hnone
  next hne =>
    constructor
    · rw [Set.eq_empty_iff_forall_notMem]
      intro g hg
      obtain ⟨⟨b, hb, hgb⟩, hrest⟩ := mem_allAllowed_cons.mp hg
      cases ha : write merged with
      | none =>
        cases h with
        | same hm =>
          obtain ⟨a, ha', _⟩ := hrest merged hm
          rw [ha] at ha'
          cases ha'
        | met hvalid =>
          rw [hread _ hvalid] at ha
          cases ha
      | some a =>
        rw [ha, hb] at hnone
        have hempty := hmeet.disjoint a b (hwrite _ _ ha) (hwrite _ _ hb) (Option.map_eq_none_iff.mp hnone)
        rw [← h.allowed_of_write hread ha] at hrest
        exact Set.eq_empty_iff_forall_notMem.mp hempty g ⟨hrest, hgb⟩
    · cases h with
      | same hm => exact ⟨text, List.mem_cons_self, merged, List.mem_cons_of_mem _ hm, hne⟩
      | met _ _ hdiffer =>
        obtain ⟨one, hone, other, hother, hne⟩ := hdiffer
        exact ⟨one, List.mem_cons_of_mem _ hone, other, List.mem_cons_of_mem _ hother, hne⟩

end Resolve

end PartialMeet
