import Sparkz.Lib.LeafTreePruning

/-!
# The tags of a leaf-oriented tree

The operations drop tags but do not move them, and they visit tagged nodes from the root
downwards.

* `allTags` — the tags of a tree, `openTags` — those that are found from the root without
  passing a tagged node that was not seen.
* `modifyAt_open`, `deleteAt_open` and their relatives — if the nodes that an operation
  visits count as seen, it visits open tags only, and opens no other ones.
* `bare` — the tree without its tags: two trees with the same one differ in no height, no
  binding, no chain and no balance.
-/

namespace Sparkz.Lib.LeafTree

variable {τ D K V : Type}

/-- All tags. -/
def allTags : LeafTree τ D K V → List τ
  | stub _ => []
  | leaf tag _ _ _ => tag.toList
  | node tag _ l r _ => tag.toList ++ allTags l ++ allTags r

/-- The tags that are not below a tag that was not seen. -/
def openTags (seen : τ → Bool) : LeafTree τ D K V → List τ
  | stub _ => []
  | leaf tag _ _ _ => tag.toList
  | node tag _ l r _ =>
      tag.toList ++ if tag.all seen then openTags seen l ++ openTags seen r else []

theorem openTags_true (t : LeafTree τ D K V) : t.openTags (fun _ => true) = t.allTags := by
  induction t with
  | stub d => rfl
  | leaf tag k v n => rfl
  | node tag k l r b ihl ihr =>
    have hall : tag.all (fun _ => true) = true := by cases tag <;> rfl
    rw [openTags, if_pos hall, ihl, ihr, allTags, List.append_assoc]

section

variable {k : K} {l r t t' : LeafTree τ D K V} {b : Int8} {seen : τ → Bool}

theorem all_of_toList {tag : Option τ} (h : ∀ x ∈ tag.toList, seen x = true) :
    tag.all seen = true := by
  cases tag with
  | none => rfl
  | some x => exact h x (List.mem_singleton_self x)

theorem openTags_sublist (seen : τ → Bool) (t : LeafTree τ D K V) :
    (t.openTags seen).Sublist t.allTags := by
  induction t with
  | stub d => exact List.Sublist.refl _
  | leaf tag k v n => exact List.Sublist.refl _
  | node tag k l r b ihl ihr =>
    rw [openTags, allTags, List.append_assoc]
    refine List.Sublist.append_left ?_ _
    split
    · exact ihl.append ihr
    · exact List.nil_sublist _

theorem tags_subset_openTags (t : LeafTree τ D K V) : t.tags ⊆ t.openTags seen := by
  intro x hx
  cases t with
  | stub d => cases hx
  | leaf tag k v n => exact hx
  | node tag k l r b => exact List.mem_append_left _ hx

theorem openTags_node {tag : Option τ} (h : tag.all seen = true) :
    (node tag k l r b).openTags seen = tag.toList ++ (l.openTags seen ++ r.openTags seen) := by
  rw [openTags, if_pos h]

theorem openTags_new : (node none k l r b).openTags seen = l.openTags seen ++ r.openTags seen := rfl

/-! ## Rotations -/

theorem doubleLeft_open (h : doubleLeft k l r = some t) {tag : Option τ} {kr : K}
    {rl rr : LeafTree τ D K V} {br : Int8} (hr : r = node tag kr rl rr br)
    (htag : tag.all seen = true) (hrl : ∀ x ∈ rl.tags, seen x = true) :
    (t.openTags seen).Sublist (l.openTags seen ++ r.openTags seen) := by
  subst hr
  cases rl with
  | stub d => cases h
  | leaf tm km vm nm => cases h
  | node tm km ml mr bm =>
    obtain ⟨b', _, rfl⟩ := Option.map_eq_some_iff.1 h
    rw [openTags_node htag, openTags_node (all_of_toList hrl), openTags_new, openTags_new,
      openTags_new, List.append_assoc]
    refine List.Sublist.append_left ?_ _
    rw [List.append_assoc, List.append_assoc]
    exact (List.sublist_append_right _ _).trans (List.sublist_append_right _ _)

theorem doubleRight_open (h : doubleRight k l r = some t) {tag : Option τ} {kl : K}
    {ll lr : LeafTree τ D K V} {bl : Int8} (hl : l = node tag kl ll lr bl)
    (htag : tag.all seen = true) (hlr : ∀ x ∈ lr.tags, seen x = true) :
    (t.openTags seen).Sublist (l.openTags seen ++ r.openTags seen) := by
  subst hl
  cases lr with
  | stub d => cases h
  | leaf tm km vm nm => cases h
  | node tm km ml mr bm =>
    obtain ⟨b', _, rfl⟩ := Option.map_eq_some_iff.1 h
    rw [openTags_node htag, openTags_node (all_of_toList hlr), openTags_new, openTags_new,
      openTags_new, ← List.append_assoc]
    refine List.Sublist.append_right ?_ _
    rw [List.append_assoc]
    refine (List.Sublist.append_left ?_ _).trans (List.sublist_append_right _ _)
    exact List.sublist_append_right _ _

theorem raiseLeft_open {higher up : Bool} (h : raiseLeft k l r b higher = some (t, up))
    (hopen : higher = true → Opened l) :
    (t.openTags seen).Sublist (l.openTags seen ++ r.openTags seen) := by
  unfold raiseLeft at h
  split at h
  · rename_i hrot
    rw [Bool.and_eq_true] at hrot
    obtain ⟨kl, ll, lr, bl, rfl, hlr, -⟩ := hopen hrot.1
    simp only at h
    split at h
    · cases h
      rw [openTags_new, openTags_new, openTags_new, List.append_assoc]
    · rename_i hbl
      obtain ⟨t', ht', heq⟩ := Option.map_eq_some_iff.1 h
      cases heq
      have htags : lr.tags = [] := hlr.resolve_left hbl
      exact doubleRight_open ht' rfl rfl (by simp [htags])
  · cases h
    exact List.Sublist.refl _

theorem raiseRight_open {higher up : Bool} (h : raiseRight k l r b higher = some (t, up))
    (hopen : higher = true → Opened r) :
    (t.openTags seen).Sublist (l.openTags seen ++ r.openTags seen) := by
  unfold raiseRight at h
  split at h
  · rename_i hrot
    rw [Bool.and_eq_true] at hrot
    obtain ⟨kr, rl, rr, br, rfl, -, hrl⟩ := hopen hrot.1
    simp only at h
    split at h
    · cases h
      rw [openTags_new, openTags_new, openTags_new, List.append_assoc]
    · rename_i hbr
      obtain ⟨t', ht', heq⟩ := Option.map_eq_some_iff.1 h
      cases heq
      have htags : rl.tags = [] := hrl.resolve_left hbr
      exact doubleLeft_open ht' rfl rfl (by simp [htags])
  · cases h
    exact List.Sublist.refl _

theorem lowerLeft_open {lower down : Bool} {visits : List τ}
    (h : lowerLeft k l r b lower = some (t, down, visits)) (hseen : ∀ x ∈ visits, seen x = true) :
    (t.openTags seen).Sublist (l.openTags seen ++ r.openTags seen)
      ∧ visits ⊆ r.openTags seen := by
  unfold lowerLeft at h
  split at h
  · split at h
    · rename_i tr kr rl rr br
      split at h
      · obtain ⟨t', ht', heq⟩ := Option.map_eq_some_iff.1 h
        cases heq
        have htr : tr.all seen = true :=
          all_of_toList fun x hx => hseen x (List.mem_append_left _ hx)
        refine ⟨doubleLeft_open ht' rfl htr fun x hx => hseen x (List.mem_append_right _ hx), ?_⟩
        rw [openTags_node htr]
        refine List.append_subset.2 ⟨List.subset_append_left _ _, ?_⟩
        intro x hx
        exact List.mem_append_right _ (List.mem_append_left _ (tags_subset_openTags rl hx))
      · cases h
        have htr : tr.all seen = true := all_of_toList hseen
        rw [openTags_node htr, openTags_new, openTags_new, List.append_assoc]
        exact ⟨List.Sublist.append_left (List.sublist_append_right _ _) _,
          List.subset_append_left _ _⟩
    · cases h
  · cases h
    exact ⟨List.Sublist.refl _, List.nil_subset _⟩

theorem lowerRight_open {lower down : Bool} {visits : List τ}
    (h : lowerRight k l r b lower = some (t, down, visits)) (hseen : ∀ x ∈ visits, seen x = true) :
    (t.openTags seen).Sublist (l.openTags seen ++ r.openTags seen)
      ∧ visits ⊆ l.openTags seen := by
  unfold lowerRight at h
  split at h
  · split at h
    · rename_i tl kl ll lr bl
      split at h
      · obtain ⟨t', ht', heq⟩ := Option.map_eq_some_iff.1 h
        cases heq
        have htl : tl.all seen = true :=
          all_of_toList fun x hx => hseen x (List.mem_append_left _ hx)
        refine ⟨doubleRight_open ht' rfl htl fun x hx => hseen x (List.mem_append_right _ hx), ?_⟩
        rw [openTags_node htl]
        refine List.append_subset.2 ⟨List.subset_append_left _ _, ?_⟩
        intro x hx
        exact List.mem_append_right _ (List.mem_append_right _ (tags_subset_openTags lr hx))
      · cases h
        have htl : tl.all seen = true := all_of_toList hseen
        rw [openTags_node htl, openTags_new, openTags_new, List.append_assoc, List.append_assoc]
        exact ⟨List.sublist_append_right _ _, List.subset_append_left _ _⟩
    · cases h
  · cases h
    exact ⟨List.Sublist.refl _, List.nil_subset _⟩

/-! ## Changing and removing leaves -/

/-- A way down that is seen. -/
theorem pathTags_open {path : List Bool} (hseen : ∀ x ∈ pathTags t path, seen x = true) :
    pathTags t path ⊆ t.openTags seen := by
  induction t generalizing path with
  | stub d => cases path <;> exact List.nil_subset _
  | leaf tag k v n => cases path <;> exact fun x hx => hx
  | node tag k l r b ihl ihr =>
    cases path with
    | nil => exact List.nil_subset _
    | cons d path =>
      cases d with
      | true =>
        rw [pathTags] at hseen ⊢
        have htag : tag.all seen = true :=
          all_of_toList fun x hx => hseen x (List.mem_append_left _ hx)
        rw [openTags_node htag]
        refine List.append_subset.2 ⟨List.subset_append_left _ _, fun x hx => ?_⟩
        have hin := ihl (fun x hx => hseen x (List.mem_append_right _ hx)) hx
        exact List.mem_append_right _ (List.mem_append_left _ hin)
      | false =>
        rw [pathTags] at hseen ⊢
        have htag : tag.all seen = true :=
          all_of_toList fun x hx => hseen x (List.mem_append_left _ hx)
        rw [openTags_node htag]
        refine List.append_subset.2 ⟨List.subset_append_left _ _, fun x hx => ?_⟩
        have hin := ihr (fun x hx => hseen x (List.mem_append_right _ hx)) hx
        exact List.mem_append_right _ (List.mem_append_right _ hin)

/-- A changed leaf. -/
theorem modifyAt_open {path : List Bool} {act : Action K V} {changed up : Bool}
    (h : modifyAt t path act = some (t', changed, up))
    (hseen : ∀ x ∈ pathTags t path, seen x = true) :
    (t'.openTags seen).Sublist (t.openTags seen) := by
  induction t generalizing path t' changed up with
  | stub d => cases path <;> cases h
  | leaf tag k v n =>
    cases path with
    | cons d path => cases h
    | nil =>
      cases act with
      | keep =>
        cases h
        exact List.Sublist.refl _
      | update value =>
        cases h
        exact List.nil_sublist _
      | insert key value =>
        cases h
        exact List.nil_sublist _
  | node tag k l r b ihl ihr =>
    cases path with
    | nil => cases h
    | cons d path =>
      cases d with
      | true =>
        rw [pathTags] at hseen
        have htag : tag.all seen = true :=
          all_of_toList fun x hx => hseen x (List.mem_append_left _ hx)
        rw [modifyAt] at h
        obtain ⟨⟨l', ch, hi⟩, hmod, h⟩ := Option.bind_eq_some_iff.1 h
        cases ch with
        | false =>
          cases h
          exact List.Sublist.refl _
        | true =>
          obtain ⟨⟨y, up'⟩, hraise, heq⟩ := Option.map_eq_some_iff.1 h
          cases heq
          have hsub := ihl hmod fun x hx => hseen x (List.mem_append_right _ hx)
          rw [openTags_node htag]
          refine (raiseLeft_open hraise (modifyAt_fresh hmod).2).trans ?_
          exact (hsub.append_right _).trans (List.sublist_append_right _ _)
      | false =>
        rw [pathTags] at hseen
        have htag : tag.all seen = true :=
          all_of_toList fun x hx => hseen x (List.mem_append_left _ hx)
        rw [modifyAt] at h
        obtain ⟨⟨r', ch, hi⟩, hmod, h⟩ := Option.bind_eq_some_iff.1 h
        cases ch with
        | false =>
          cases h
          exact List.Sublist.refl _
        | true =>
          obtain ⟨⟨y, up'⟩, hraise, heq⟩ := Option.map_eq_some_iff.1 h
          cases heq
          have hsub := ihr hmod fun x hx => hseen x (List.mem_append_right _ hx)
          rw [openTags_node htag]
          refine (raiseRight_open hraise (modifyAt_fresh hmod).2).trans ?_
          exact (hsub.append_left _).trans (List.sublist_append_right _ _)

/-- What an operation on a tree makes of the open tags, and which ones it visits. -/
def Opens (seen : τ → Bool) (t' : LeafTree τ D K V) (visits tags : List τ) : Prop :=
  (t'.openTags seen).Sublist tags ∧ visits ⊆ tags

theorem setLastNext_open {n : K} {visits : List τ} (h : setLastNext t n = some (t', visits))
    (hseen : ∀ x ∈ visits, seen x = true) : Opens seen t' visits (t.openTags seen) := by
  induction t generalizing t' visits with
  | stub d => cases h
  | leaf tag k v n' =>
    cases h
    exact ⟨List.nil_sublist _, fun x hx => hx⟩
  | node tag k l r b _ ihr =>
    rw [setLastNext] at h
    obtain ⟨⟨r', vr⟩, hset, heq⟩ := Option.map_eq_some_iff.1 h
    cases heq
    have htag : tag.all seen = true := all_of_toList fun x hx => hseen x (List.mem_append_left _ hx)
    obtain ⟨hsub, hvisits⟩ := ihr hset fun x hx => hseen x (List.mem_append_right _ hx)
    rw [Opens, openTags_node htag, openTags_new]
    refine ⟨(hsub.append_left _).trans (List.sublist_append_right _ _), ?_⟩
    refine List.append_subset.2 ⟨List.subset_append_left _ _, fun x hx => ?_⟩
    exact List.mem_append_right _ (List.mem_append_right _ (hvisits hx))

theorem setFirst_open {v : V} {visits : List τ} (h : setFirst t k v = some (t', visits))
    (hseen : ∀ x ∈ visits, seen x = true) : Opens seen t' visits (t.openTags seen) := by
  induction t generalizing t' visits with
  | stub d => cases h
  | leaf tag k v n' =>
    cases h
    exact ⟨List.nil_sublist _, fun x hx => hx⟩
  | node tag k l r b ihl _ =>
    rw [setFirst] at h
    obtain ⟨⟨l', vl⟩, hset, heq⟩ := Option.map_eq_some_iff.1 h
    cases heq
    have htag : tag.all seen = true := all_of_toList fun x hx => hseen x (List.mem_append_left _ hx)
    obtain ⟨hsub, hvisits⟩ := ihl hset fun x hx => hseen x (List.mem_append_right _ hx)
    rw [Opens, openTags_node htag, openTags_new]
    refine ⟨(hsub.append_right _).trans (List.sublist_append_right _ _), ?_⟩
    refine List.append_subset.2 ⟨List.subset_append_left _ _, fun x hx => ?_⟩
    exact List.mem_append_right _ (List.mem_append_left _ (hvisits hx))

theorem removeMax_open {down : Bool} {e : K × V} {visits : List τ}
    (h : removeMax t = some (t', down, e, visits)) (hseen : ∀ x ∈ visits, seen x = true) :
    Opens seen t' visits (t.openTags seen) := by
  induction t generalizing t' down e visits with
  | stub d => cases h
  | leaf tag k v n => cases h
  | node tag k l r b _ ihr =>
    cases r with
    | stub d => cases h
    | leaf tr kr vr nr =>
      cases h
      have htag : tag.all seen = true :=
        all_of_toList fun x hx => hseen x (List.mem_append_left _ hx)
      rw [Opens, openTags_node htag]
      constructor
      · exact (List.sublist_append_left _ _).trans (List.sublist_append_right _ _)
      · refine List.append_subset.2 ⟨List.subset_append_left _ _, fun x hx => ?_⟩
        exact List.mem_append_right _ (List.mem_append_right _ hx)
    | node tr kr rl rr br =>
      rw [removeMax] at h
      obtain ⟨⟨r', dr, er, vr⟩, hrem, h⟩ := Option.bind_eq_some_iff.1 h
      obtain ⟨⟨y, down', vy⟩, hlow, heq⟩ := Option.map_eq_some_iff.1 h
      cases heq
      simp only [List.mem_append] at hseen
      have htag : tag.all seen = true := all_of_toList fun x hx => hseen x (.inl (.inl hx))
      obtain ⟨hsub, hvisits⟩ := ihr hrem fun x hx => hseen x (.inl (.inr hx))
      obtain ⟨hsub', hvisits'⟩ := lowerRight_open hlow fun x hx => hseen x (.inr hx)
      rw [Opens, openTags_node htag]
      constructor
      · exact (hsub'.trans (hsub.append_left _)).trans (List.sublist_append_right _ _)
      · intro x hx
        simp only [List.mem_append] at hx ⊢
        obtain (hx | hx) | hx := hx
        · exact .inl hx
        · exact .inr (.inr (hvisits hx))
        · exact .inr (.inl (hvisits' hx))

theorem deleteRoot_open {tag : Option τ} {down : Bool} {visits : List τ}
    (h : deleteRoot tag l r b = some (t', down, visits)) (hseen : ∀ x ∈ visits, seen x = true) :
    Opens seen t' visits ((node tag k l r b).openTags seen) := by
  unfold deleteRoot at h
  split at h
  · cases h
  · obtain ⟨⟨y, vy⟩, hset, heq⟩ := Option.map_eq_some_iff.1 h
    cases heq
    simp only [List.mem_append] at hseen
    have htag : tag.all seen = true := all_of_toList fun x hx => hseen x (.inl (.inl hx))
    obtain ⟨hsub, hvisits⟩ := setLastNext_open hset fun x hx => hseen x (.inr hx)
    rw [Opens, openTags_node htag]
    constructor
    · exact (hsub.trans (List.sublist_append_left _ _)).trans (List.sublist_append_right _ _)
    · intro x hx
      simp only [List.mem_append] at hx ⊢
      obtain (hx | hx) | hx := hx
      · exact .inl hx
      · exact .inr (.inr hx)
      · exact .inr (.inl (hvisits hx))
  · split at h
    · cases h
    · obtain ⟨⟨y, vy⟩, hset, heq⟩ := Option.map_eq_some_iff.1 h
      cases heq
      simp only [List.mem_append] at hseen
      have htag : tag.all seen = true := all_of_toList fun x hx => hseen x (.inl (.inl hx))
      obtain ⟨hsub, hvisits⟩ := setFirst_open hset fun x hx => hseen x (.inr hx)
      rw [Opens, openTags_node htag]
      constructor
      · exact (hsub.trans (List.sublist_append_right _ _)).trans (List.sublist_append_right _ _)
      · intro x hx
        simp only [List.mem_append] at hx ⊢
        obtain (hx | hx) | hx := hx
        · exact .inl hx
        · exact .inr (.inl hx)
        · exact .inr (.inr (hvisits hx))
    · obtain ⟨⟨y, dy, e, vy⟩, hrem, h⟩ := Option.bind_eq_some_iff.1 h
      obtain ⟨⟨z, vz⟩, hset, h⟩ := Option.bind_eq_some_iff.1 h
      obtain ⟨⟨w, dw, vw⟩, hlow, heq⟩ := Option.map_eq_some_iff.1 h
      cases heq
      simp only [List.mem_append] at hseen
      have htag : tag.all seen = true := all_of_toList fun x hx => hseen x (.inl (.inl (.inl hx)))
      obtain ⟨hsub, hvisits⟩ := removeMax_open hrem fun x hx => hseen x (.inl (.inl (.inr hx)))
      obtain ⟨hsub', hvisits'⟩ := setFirst_open hset fun x hx => hseen x (.inl (.inr hx))
      obtain ⟨hsub'', hvisits''⟩ := lowerLeft_open hlow fun x hx => hseen x (.inr hx)
      rw [Opens, openTags_node htag]
      constructor
      · exact (hsub''.trans (hsub.append hsub')).trans (List.sublist_append_right _ _)
      · intro x hx
        simp only [List.mem_append] at hx ⊢
        obtain ((hx | hx) | hx) | hx := hx
        · exact .inl hx
        · exact .inr (.inl (hvisits hx))
        · exact .inr (.inr (hvisits' hx))
        · exact .inr (.inr (hsub'.subset (hvisits'' hx)))

/-- A removed leaf. -/
theorem deleteAt_open {cmps : List Ordering} {down : Bool} {visits : List τ}
    (h : deleteAt t cmps = some (t', down, visits)) (hseen : ∀ x ∈ visits, seen x = true) :
    Opens seen t' visits (t.openTags seen) := by
  induction t generalizing cmps t' down visits with
  | stub d => cases h
  | leaf tag k v n => cases h
  | node tag k l r b ihl ihr =>
    cases cmps with
    | nil => cases h
    | cons c cmps =>
      cases c with
      | eq => exact deleteRoot_open h hseen
      | lt =>
        rw [deleteAt] at h
        split at h
        · obtain ⟨⟨y, dy, vy⟩, hdel, h⟩ := Option.bind_eq_some_iff.1 h
          obtain ⟨⟨w, dw, vw⟩, hlow, heq⟩ := Option.map_eq_some_iff.1 h
          cases heq
          simp only [List.mem_append] at hseen
          have htag : tag.all seen = true := all_of_toList fun x hx => hseen x (.inl (.inl hx))
          obtain ⟨hsub, hvisits⟩ := ihl hdel fun x hx => hseen x (.inl (.inr hx))
          obtain ⟨hsub', hvisits'⟩ := lowerLeft_open hlow fun x hx => hseen x (.inr hx)
          rw [Opens, openTags_node htag]
          constructor
          · exact (hsub'.trans (hsub.append_right _)).trans (List.sublist_append_right _ _)
          · intro x hx
            simp only [List.mem_append] at hx ⊢
            obtain (hx | hx) | hx := hx
            · exact .inl hx
            · exact .inr (.inl (hvisits hx))
            · exact .inr (.inr (hvisits' hx))
        · cases h
      | gt =>
        rw [deleteAt] at h
        split at h
        · obtain ⟨⟨y, dy, vy⟩, hdel, h⟩ := Option.bind_eq_some_iff.1 h
          obtain ⟨⟨w, dw, vw⟩, hlow, heq⟩ := Option.map_eq_some_iff.1 h
          cases heq
          simp only [List.mem_append] at hseen
          have htag : tag.all seen = true := all_of_toList fun x hx => hseen x (.inl (.inl hx))
          obtain ⟨hsub, hvisits⟩ := ihr hdel fun x hx => hseen x (.inl (.inr hx))
          obtain ⟨hsub', hvisits'⟩ := lowerRight_open hlow fun x hx => hseen x (.inr hx)
          rw [Opens, openTags_node htag]
          constructor
          · exact (hsub'.trans (hsub.append_left _)).trans (List.sublist_append_right _ _)
          · intro x hx
            simp only [List.mem_append] at hx ⊢
            obtain (hx | hx) | hx := hx
            · exact .inl hx
            · exact .inr (.inr (hvisits hx))
            · exact .inr (.inl (hvisits' hx))
        · cases h

/-! ## Trees without their tags -/

/-- The tree without its tags. -/
def bare : LeafTree τ D K V → LeafTree τ D K V
  | stub d => stub d
  | leaf _ k v n => leaf none k v n
  | node _ k l r b => node none k (bare l) (bare r) b

theorem height_bare (t : LeafTree τ D K V) : t.bare.height = t.height := by
  induction t with
  | stub d => rfl
  | leaf tag k v n => rfl
  | node tag k l r b ihl ihr => rw [bare, height_node, height_node, ihl, ihr]

theorem entries_bare (t : LeafTree τ D K V) : t.bare.entries = t.entries := by
  induction t with
  | stub d => rfl
  | leaf tag k v n => rfl
  | node tag k l r b ihl ihr => rw [bare, entries_node, entries_node, ihl, ihr]

theorem chain_bare [LinearOrder K] {lo hi : K} : Chain lo hi t.bare ↔ Chain lo hi t := by
  induction t generalizing lo hi with
  | stub d => exact Iff.rfl
  | leaf tag k v n => exact Iff.rfl
  | node tag k l r b ihl ihr => rw [bare, chain_node, chain_node, ihl, ihr]

theorem balanced_bare : t.bare.Balanced ↔ t.Balanced := by
  induction t with
  | stub d => exact Iff.rfl
  | leaf tag k v n => exact Iff.rfl
  | node tag k l r b ihl ihr =>
    rw [bare, balanced_node, balanced_node, ihl, ihr, height_bare, height_bare]

/-- Trees that differ in their tags only have the same height. -/
theorem height_eq_of_bare (h : t'.bare = t.bare) : t'.height = t.height := by
  rw [← height_bare, h, height_bare]

theorem entries_eq_of_bare (h : t'.bare = t.bare) : t'.entries = t.entries := by
  rw [← entries_bare, h, entries_bare]

theorem chain_of_bare [LinearOrder K] {lo hi : K} (h : t'.bare = t.bare) (hchain : Chain lo hi t) :
    Chain lo hi t' := by
  rwa [← chain_bare, h, chain_bare]

theorem balanced_of_bare (h : t'.bare = t.bare) (hbal : t.Balanced) : t'.Balanced := by
  rwa [← balanced_bare, h, balanced_bare]

end

end Sparkz.Lib.LeafTree
