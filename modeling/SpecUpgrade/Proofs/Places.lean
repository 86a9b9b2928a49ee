import SpecUpgrade.FileTree.Change

/-!
What stands where in a tree of files, and where paths lead. A change at one place shows at no other,
and a path leads where it led before as long as directories, links and files stay what they are. A
file is written in the same place in which it is read.
-/

namespace SpecUpgrade

namespace SortedMap

variable {κ α : Type} [DecidableEq κ]

theorem find?_filter_of_ne {k k' : κ} (hne : k' ≠ k) (entries : List (κ × α)) :
    find? k' (entries.filter (·.1 != k)) = find? k' entries := by
  induction entries with
  | nil => rfl
  | cons e rest ih =>
    rw [List.filter_cons, find?]
    by_cases he : e.1 = k
    · have hke : k' ≠ e.1 := fun h => hne (h.trans he)
      rw [if_neg (by simp [he]), if_neg hke, ih]
    · rw [if_pos (by simpa using he), find?, ih]

end SortedMap

namespace FileTree

/-! ## What stands at a place -/

variable {t t' new : FileTree} {place front back : Location}

theorem get?_append (t : FileTree) (front back : Location) :
    t.get? (front ++ back) = (t.get? front).bind (·.get? back) := by
  induction front generalizing t with
  | nil => simp [get?]
  | cons name front ih =>
    cases t with
    | dir entries =>
      rw [List.cons_append, get?, get?]
      cases SortedMap.find? name entries with
      | none => rfl
      | some below => exact ih below
    | _ => rfl

/-- What stands below a tree stands below an entry of a directory. -/
theorem get?_cons_eq_some {x : FileTree} {name : String} (h : t.get? (name :: place) = some x) :
    ∃ entries below, t = .dir entries ∧ SortedMap.find? name entries = some below ∧
      below.get? place = some x := by
  cases t with
  | dir entries =>
    rw [get?] at h
    cases hfound : SortedMap.find? name entries with
    | none => simp [hfound] at h
    | some below =>
      rw [hfound] at h
      exact ⟨entries, below, rfl, hfound, h⟩
  | _ => cases h

def HasDir (t : FileTree) (place : Location) : Prop := ∃ entries, t.get? place = some (.dir entries)

/-- Something stands only below directories. -/
theorem hasDir_of_get?_append {x : FileTree} (h : t.get? (front ++ back) = some x)
    (hback : back ≠ []) : t.HasDir front := by
  rw [get?_append] at h
  obtain ⟨mid, hmid, hbelow⟩ := Option.bind_eq_some_iff.mp h
  cases back with
  | nil => exact absurd rfl hback
  | cons name back =>
    obtain ⟨entries, -, rfl, -, -⟩ := get?_cons_eq_some hbelow
    exact ⟨entries, hmid⟩

theorem HasDir.of_above (h : t.HasDir place) (hfront : front <+: place) : t.HasDir front := by
  obtain ⟨back, rfl⟩ := hfront
  obtain ⟨entries, hget⟩ := h
  cases back with
  | nil => exact ⟨entries, by simpa using hget⟩
  | cons name back => exact hasDir_of_get?_append hget (by simp)

theorem HasDir.dropLast (h : t.HasDir place) : t.HasDir (List.dropLast place) :=
  h.of_above ( List.dropLast_prefix place)

/-- What is put below a place becomes a part of what stands there. -/
theorem get?_set_of_some {x : FileTree} (h : t.get? front = some x) :
    (set new t (front ++ back)).get? front = some (set new x back) := by
  induction front generalizing t with
  | nil =>
    cases h
    rfl
  | cons name front ih =>
    obtain ⟨entries, below, rfl, hfound, hbelow⟩ := get?_cons_eq_some h
    rw [List.cons_append, set, hfound, get?, SortedMap.find?_insert, if_pos rfl]
    exact ih hbelow

/-! ## What shows at a place -/

/-- What shows of a tree from outside: of a directory, only that it is one. -/
def surface : FileTree → FileTree
  | .dir _ => .dir []
  | t => t

def look? (t : FileTree) (place : Location) : Option FileTree := (t.get? place).map surface

/-- All but directories show as they are. -/
theorem look?_eq_some_iff {x : FileTree} (hx : x.isDir = false) :
    t.look? place = some x ↔ t.get? place = some x := by
  unfold look?
  cases t.get? place with
  | none => simp
  | some y =>
    cases y with
    | dir entries =>
      cases x with
      | dir _ => cases hx
      | _ => simp [surface]
    | _ => simp [surface]

theorem look?_eq_none_iff : t.look? place = none ↔ t.get? place = none := Option.map_eq_none_iff

/-- What is put at a place shows neither beside it nor above it, unless directories are made on the
way. -/
theorem look?_set {there : Location} (hbelow : ¬ place <+: there)
    (habove : there <+: place → t.get? there ≠ none) :
    (set new t place).look? there = t.look? there := by
  induction place generalizing t there with
  | nil => exact absurd List.nil_prefix hbelow
  | cons name place ih =>
    cases t with
    | dir entries =>
      cases there with
      | nil => rfl
      | cons name' there =>
        rw [set, look?, look?, get?, get?, SortedMap.find?_insert]
        by_cases hname : name' = name
        · subst hname
          rw [List.cons_prefix_cons] at hbelow
          simp only [List.cons_prefix_cons, true_and, get?] at habove
          cases hfound : SortedMap.find? name' entries with
          | some below =>
            rw [hfound] at habove
            rw [if_pos rfl]
            exact ih (fun h => hbelow ⟨rfl, h⟩) habove
          | none =>
            -- a directory is made, in which nothing stands yet
            rw [hfound] at habove
            cases there with
            | nil => exact absurd rfl (habove List.nil_prefix)
            | cons name'' there =>
              have hnew := ih (t := .dir []) (fun h => hbelow ⟨rfl, h⟩)
                fun h => absurd rfl (habove h)
              simpa [look?, get?, SortedMap.find?] using hnew
        · simp [hname]
    | _ => rfl

theorem look?_erase {there : Location} (hbelow : ¬ place <+: there) :
    (t.erase place).look? there = t.look? there := by
  induction place generalizing t there with
  | nil => exact absurd List.nil_prefix hbelow
  | cons name place ih =>
    cases t with
    | dir entries =>
      cases there with
      | nil =>
        unfold erase
        split <;> first | rfl | (split <;> rfl)
      | cons name' there =>
        cases place with
        | nil =>
          have hne : name' ≠ name := by
            rintro rfl
            exact hbelow ⟨there, rfl⟩
          rw [erase, look?, look?, get?, get?, SortedMap.find?_filter_of_ne hne]
        | cons name'' place =>
          rw [erase]
          · cases hfound : SortedMap.find? name entries with
            | none => rfl
            | some below =>
              simp only [look?, get?, SortedMap.find?_insert]
              by_cases hname : name' = name
              · subst hname
                rw [if_pos rfl, hfound]
                exact ih fun h => hbelow (List.cons_prefix_cons.mpr ⟨rfl, h⟩)
              · rw [if_neg hname]
          · simp
    | _ => simp [erase]

/-- Two trees show the same at some places. -/
def SameOn (shown : Location → Prop) (t t' : FileTree) : Prop :=
  ∀ place, shown place → t.look? place = t'.look? place

namespace SameOn

variable {shown : Location → Prop} {t'' : FileTree}

theorem refl (t : FileTree) : SameOn shown t t := fun _ _ => rfl

theorem symm (h : SameOn shown t t') : SameOn shown t' t := fun place hp => (h place hp).symm

theorem trans (h : SameOn shown t t') (h' : SameOn shown t' t'') : SameOn shown t t'' :=
  fun place hp => (h place hp).trans (h' place hp)

end SameOn

/-! ## Following paths -/

/-- A name that stands for an entry of a directory, and is not too long. -/
structure IsStep (name : String) : Prop where
  not_same : ¬ (name = "" ∨ name = ".")
  not_up : name ≠ ".."
  short : ¬ maxName < name.utf8ByteSize

/-- A file or a device, which ends a path. -/
def isLeaf : FileTree → Bool
  | .file _ _ => true
  | .device _ => true
  | _ => false

theorem isLink_of_isLeaf {x : FileTree} (h : x.isLeaf = true) : x.isLink = false := by
  cases x <;> first | rfl | cases h

/-- Names lead from a directory to a place when so many links may be followed. -/
inductive Leads (t : FileTree) : Nat → Location → List String → Location → Prop
  | stay {links : Nat} {here : Location} : Leads t links here [] here
  | skip {links : Nat} {here there : Location} {name : String} {rest : List String} :
      name = "" ∨ name = "." → Leads t links here rest there →
      Leads t links here (name :: rest) there
  | up {links : Nat} {here there : Location} {rest : List String} :
      Leads t links here.dropLast rest there → Leads t links here (".." :: rest) there
  | enter {links : Nat} {here there : Location} {name : String} {rest : List String}
      {entries : List (String × FileTree)} :
      IsStep name → t.get? (here ++ [name]) = some (.dir entries) →
      Leads t links (here ++ [name]) rest there → Leads t links here (name :: rest) there
  | reach {links : Nat} {here : Location} {name : String} {x : FileTree} :
      IsStep name → t.get? (here ++ [name]) = some x → x.isLeaf = true →
      Leads t links here [name] (here ++ [name])
  | through {links : Nat} {here there : Location} {name target : String} {rest : List String} :
      IsStep name → t.get? (here ++ [name]) = some (.link target) →
      Leads t links (if isAbsolute target then [] else here) (pathNames target ++ rest) there →
      Leads t (links + 1) here (name :: rest) there

theorem leads_of_follow {links : Nat} {here there : Location} {names : List String}
    (h : t.follow links here names = .ok there) : Leads t links here names there := by
  induction links, here, names using follow.induct t with
  | case1 links here =>
    rw [follow] at h
    cases h
    exact .stay
  | case2 links here name rest hname ih =>
    rw [follow, if_pos hname] at h
    exact .skip hname (ih h)
  | case3 links here rest hname ih =>
    rw [follow, if_neg hname, if_pos rfl] at h
    exact .up (ih h)
  | case4 links here name rest hname hup hlong =>
    rw [follow, if_neg hname, if_neg hup, if_pos hlong] at h
    cases h
  | case5 links here name rest hname hup hshort hget =>
    rw [follow, if_neg hname, if_neg hup, if_neg hshort, hget] at h
    cases h
  | case6 links here name rest hname hup hshort entries hget ih =>
    rw [follow, if_neg hname, if_neg hup, if_neg hshort, hget] at h
    exact .enter ⟨hname, hup, hshort⟩ hget (ih h)
  | case7 links here name hname hup hshort content mode hget =>
    rw [follow, if_neg hname, if_neg hup, if_neg hshort, hget] at h
    cases h
    exact .reach ⟨hname, hup, hshort⟩ hget rfl
  | case8 links here name rest hname hup hshort content mode hget hrest =>
    rw [follow, if_neg hname, if_neg hup, if_neg hshort, hget] at h
    simp [hrest] at h
  | case9 links here name hname hup hshort kind hget =>
    rw [follow, if_neg hname, if_neg hup, if_neg hshort, hget] at h
    cases h
    exact .reach ⟨hname, hup, hshort⟩ hget rfl
  | case10 links here name rest hname hup hshort kind hget hrest =>
    rw [follow, if_neg hname, if_neg hup, if_neg hshort, hget] at h
    simp [hrest] at h
  | case11 here name rest hname hup hshort target hget =>
    rw [follow, if_neg hname, if_neg hup, if_neg hshort, hget] at h
    cases h
  | case12 here name rest hname hup hshort target hget links ih =>
    rw [follow, if_neg hname, if_neg hup, if_neg hshort, hget] at h
    exact .through ⟨hname, hup, hshort⟩ hget (ih h)

theorem Leads.follow_eq {links : Nat} {here there : Location} {names : List String}
    (h : Leads t links here names there) : t.follow links here names = .ok there := by
  induction h with
  | stay => rw [follow]
  | skip hname _ ih => rw [follow, if_pos hname, ih]
  | up _ ih => rw [follow, if_neg (by decide), if_pos rfl, ih]
  | enter hname hget _ ih =>
    rw [follow, if_neg hname.not_same, if_neg hname.not_up, if_neg hname.short, hget]
    exact ih
  | @reach _ _ _ x hname hget hleaf =>
    rw [follow, if_neg hname.not_same, if_neg hname.not_up, if_neg hname.short, hget]
    cases x <;> first | rfl | cases hleaf
  | through hname hget _ ih =>
    rw [follow, if_neg hname.not_same, if_neg hname.not_up, if_neg hname.short, hget]
    exact ih

theorem follow_eq_ok_iff {links : Nat} {here there : Location} {names : List String} :
    t.follow links here names = .ok there ↔ Leads t links here names there :=
  ⟨leads_of_follow, Leads.follow_eq⟩

namespace Leads

variable {links : Nat} {here there : Location} {names : List String}

/-- An empty name leads nowhere else. -/
theorem of_empty (h : Leads t links here ("" :: names) there) : Leads t links here names there := by
  have hfollow := h.follow_eq
  rw [follow, if_pos (Or.inl rfl)] at hfollow
  exact leads_of_follow hfollow

/-- More links may be followed than are needed. -/
theorem mono (h : Leads t links here names there) {more : Nat} (hmore : links ≤ more) :
    Leads t more here names there := by
  induction h generalizing more with
  | stay => exact .stay
  | skip hname _ ih => exact .skip hname (ih hmore)
  | up _ ih => exact .up (ih hmore)
  | enter hname hget _ ih => exact .enter hname hget (ih hmore)
  | reach hname hget hleaf => exact .reach hname hget hleaf
  | through hname hget _ ih =>
    obtain ⟨k, rfl⟩ : ∃ k, more = k + 1 := ⟨more - 1, by omega⟩
    exact .through hname hget (ih (by omega))

/-- Names lead through a directory to the place where the rest of them leads. -/
theorem split {behind : List String} (hhere : t.HasDir here) (hbehind : behind ≠ [])
    (h : Leads t links here (names ++ behind) there) :
    ∃ left mid, left ≤ links ∧ Leads t links here names mid ∧ t.HasDir mid ∧
      Leads t left mid behind there := by
  generalize hall : names ++ behind = all at h
  induction h generalizing names with
  | stay => exact absurd (List.append_eq_nil_iff.mp hall).2 hbehind
  | @skip links here there name rest hname hrest ih =>
    cases names with
    | nil =>
      rw [List.nil_append] at hall
      exact ⟨links, here, Nat.le_refl _, .stay, hhere, hall ▸ .skip hname hrest⟩
    | cons first names =>
      obtain ⟨rfl, htail⟩ := List.cons.inj hall
      obtain ⟨left, mid, hleft, hfront, hmid, hback⟩ := ih hhere htail
      exact ⟨left, mid, hleft, .skip hname hfront, hmid, hback⟩
  | @up links here there rest hrest ih =>
    cases names with
    | nil =>
      rw [List.nil_append] at hall
      exact ⟨links, here, Nat.le_refl _, .stay, hhere, hall ▸ .up hrest⟩
    | cons first names =>
      obtain ⟨rfl, htail⟩ := List.cons.inj hall
      obtain ⟨left, mid, hleft, hfront, hmid, hback⟩ := ih hhere.dropLast htail
      exact ⟨left, mid, hleft, .up hfront, hmid, hback⟩
  | @enter links here there name rest entries hname hget hrest ih =>
    cases names with
    | nil =>
      rw [List.nil_append] at hall
      exact ⟨links, here, Nat.le_refl _, .stay, hhere, hall ▸ .enter hname hget hrest⟩
    | cons first names =>
      obtain ⟨rfl, htail⟩ := List.cons.inj hall
      obtain ⟨left, mid, hleft, hfront, hmid, hback⟩ := ih ⟨entries, hget⟩ htail
      exact ⟨left, mid, hleft, .enter hname hget hfront, hmid, hback⟩
  | @reach links here name x hname hget hleaf =>
    cases names with
    | nil =>
      rw [List.nil_append] at hall
      exact ⟨links, here, Nat.le_refl _, .stay, hhere, hall.symm ▸ .reach hname hget hleaf⟩
    | cons first names =>
      obtain ⟨-, hall⟩ := List.cons.inj hall
      exact absurd (List.append_eq_nil_iff.mp hall).2 hbehind
  | @through links here there name target rest hname hget hrest ih =>
    cases names with
    | nil =>
      rw [List.nil_append] at hall
      exact ⟨links + 1, here, Nat.le_refl _, .stay, hhere, hall ▸ .through hname hget hrest⟩
    | cons first names =>
      obtain ⟨rfl, rfl⟩ := List.cons.inj hall
      have hstart : t.HasDir (if isAbsolute target then [] else here) := by
        split
        · exact hhere.of_above List.nil_prefix
        · exact hhere
      obtain ⟨left, mid, hleft, hfront, hmid, hback⟩ := ih hstart (List.append_assoc ..)
      exact ⟨left, mid, by omega, .through hname hget hfront, hmid, hback⟩

/-- What is no directory is reached by a last name, as a file or through a link. -/
theorem ends (hhere : t.HasDir here) (hnames : names ≠ []) (hthere : ¬ t.HasDir there)
    (h : Leads t links here names there) :
    ∃ front last mid, names = front ++ [last] ∧ IsStep last ∧ Leads t links here front mid ∧
      t.HasDir mid ∧
      ((∃ x, t.get? (mid ++ [last]) = some x ∧ x.isLeaf = true ∧ there = mid ++ [last]) ∨
        ∃ target left, t.get? (mid ++ [last]) = some (.link target) ∧ left < links ∧
          Leads t left (startOf mid target) (pathNames target) there) := by
  obtain ⟨front, last, rfl⟩ : ∃ front last, names = front ++ [last] :=
    ⟨names.dropLast, names.getLast hnames, (List.dropLast_concat_getLast hnames).symm⟩
  obtain ⟨left, mid, hleft, hfront, hmid, hlast⟩ := split hhere (by simp) h
  refine ⟨front, last, mid, rfl, ?_⟩
  cases hlast with
  | skip _ hrest =>
    cases hrest
    exact absurd hmid hthere
  | up hrest =>
    cases hrest
    exact absurd hmid.dropLast hthere
  | enter _ hget hrest =>
    cases hrest
    exact absurd ⟨_, hget⟩ hthere
  | reach hname hget hleaf => exact ⟨hname, hfront, hmid, .inl ⟨_, hget, hleaf, rfl⟩⟩
  | through hname hget hrest =>
    rw [List.append_nil] at hrest
    exact ⟨hname, hfront, hmid, .inr ⟨_, _, hget, hleft, hrest⟩⟩

end Leads

/-- Names that can be followed lead to something that is no link. -/
theorem Leads.exists_get? {links : Nat} {here there : Location} {names : List String}
    (h : Leads t links here names there) (hhere : t.HasDir here) :
    ∃ x, t.get? there = some x ∧ x.isLink = false := by
  induction h with
  | stay =>
    obtain ⟨entries, hget⟩ := hhere
    exact ⟨_, hget, rfl⟩
  | skip _ _ ih => exact ih hhere
  | up _ ih => exact ih hhere.dropLast
  | enter _ hget _ ih => exact ih ⟨_, hget⟩
  | reach _ hget hleaf => exact ⟨_, hget, isLink_of_isLeaf hleaf⟩
  | through _ _ _ ih =>
    refine ih ?_
    split
    · exact hhere.of_above List.nil_prefix
    · exact hhere

/-! ## Reading and writing by path -/

theorem canonical_eq_ok_iff {here there : Location} {path : String} :
    t.canonical here path = .ok there ↔
      checkPath path = .ok () ∧ Leads t maxLinks (startOf here path) (pathNames path) there := by
  rw [← follow_eq_ok_iff, canonical]
  cases checkPath path with
  | error e => simp [bind, Except.bind]
  | ok _ => simp [bind, Except.bind]

def trimmed (path : String) : List String := ((pathNames path).reverse.dropWhile (· == "")).reverse

theorem trimmed_eq {path last : String} {front : List String}
    (h : pathNames path = front ++ [last]) (hlast : last ≠ "") :
    trimmed path = front ++ [last] := by
  rw [trimmed, h, List.reverse_append, List.reverse_singleton, List.singleton_append,
    List.dropWhile_cons_of_neg (by simpa using hlast), List.reverse_cons, List.reverse_reverse]

theorem parentOf_eq_ok {here parent : Location} {path : String} {name? : Option String}
    (h : t.parentOf here path = .ok (parent, name?)) :
    checkPath path = .ok () ∧
      Leads t maxLinks (startOf here path) (trimmed path).dropLast parent ∧ t.HasDir parent ∧
      ∀ name, name? = some name → (trimmed path).getLastD "" = name ∧ IsStep name := by
  unfold parentOf at h
  unfold trimmed
  generalize ((pathNames path).reverse.dropWhile (· == "")).reverse = names at h ⊢
  cases hcheck : checkPath path with
  | error e => simp [hcheck, bind, Except.bind] at h
  | ok _ =>
    rw [hcheck] at h
    simp only [bind, Except.bind] at h
    cases hfollow : t.follow maxLinks (startOf here path) names.dropLast with
    | error e => simp [hfollow] at h
    | ok found =>
      rw [hfollow] at h
      cases hget : t.get? found with
      | none => simp [hget] at h
      | some x =>
        cases x with
        | dir entries =>
          simp only [hget] at h
          split at h
          · obtain ⟨rfl, rfl⟩ := Prod.mk.inj (Except.ok.inj h)
            exact ⟨rfl, leads_of_follow hfollow, ⟨entries, hget⟩, by simp⟩
          · rename_i hname
            split at h
            · cases h
            · rename_i hshort
              obtain ⟨rfl, rfl⟩ := Prod.mk.inj (Except.ok.inj h)
              refine ⟨rfl, leads_of_follow hfollow, ⟨entries, hget⟩, ?_⟩
              rintro name hsome
              obtain rfl := Option.some.inj hsome
              exact ⟨rfl, fun h => hname (or_assoc.mp (Or.inl h)),
                fun h => hname (Or.inr (Or.inr h)), hshort⟩
        | _ => simp [hget] at h

/-- A name that an entry of a directory can have. -/
structure IsName (name : String) : Prop where
  not_empty : name ≠ ""
  not_same : name ≠ "."
  not_up : name ≠ ".."
  no_slash : '/' ∉ name.toList

instance (name : String) : Decidable (IsName name) :=
  decidable_of_iff (name ≠ "" ∧ name ≠ "." ∧ name ≠ ".." ∧ '/' ∉ name.toList)
    ⟨fun ⟨h₁, h₂, h₃, h₄⟩ => ⟨h₁, h₂, h₃, h₄⟩, fun ⟨h₁, h₂, h₃, h₄⟩ => ⟨h₁, h₂, h₃, h₄⟩⟩

theorem toList_path (place : Location) :
    (Location.path place).toList = '/' :: ['/'].intercalate (place.map String.toList) := by
  simp [Location.path, String.toList_append, String.toList_intercalate]

theorem pathNames_path (hne : place ≠ []) (h : ∀ name ∈ place, IsName name) :
    pathNames (Location.path place) = "" :: place := by
  have hall : (Location.path place).toList = ['/'].intercalate ([] :: place.map String.toList) := by
    rw [toList_path]
    cases place with
    | nil => exact absurd rfl hne
    | cons name place => simp [List.intercalate]
  rw [pathNames, hall, List.splitOn_intercalate]
  · simp [Function.comp_def]
  · intro cs hcs
    rcases List.mem_cons.mp hcs with rfl | hcs
    · simp
    · obtain ⟨name, hname, rfl⟩ := List.mem_map.mp hcs
      exact (h name hname).no_slash
  · simp

theorem isAbsolute_path (place : Location) : isAbsolute (Location.path place) = true := by
  rw [isAbsolute, String.startsWith_string_iff, toList_path]
  exact ⟨_, rfl⟩

theorem isAbsolute_append {a : String} (h : isAbsolute a = true) (b : String) :
    isAbsolute (a ++ b) = true := by
  rw [isAbsolute, String.startsWith_string_iff] at h ⊢
  rw [String.toList_append]
  exact h.trans (List.prefix_append _ _)

theorem isAbsolute_joinPath {base path : String} (h : isAbsolute base = true) :
    isAbsolute (joinPath base path) = true := by
  unfold joinPath
  split
  · rename_i hpath
    rcases Bool.or_eq_true_iff.mp hpath with hpath | hempty
    · exact hpath
    · rw [isAbsolute, String.startsWith_string_iff] at h
      rw [String.isEmpty_iff] at hempty
      simp [hempty] at h
  · split
    · exact isAbsolute_append h _
    · exact isAbsolute_append (isAbsolute_append h _) _

theorem startOf_path (here place : Location) : startOf here (Location.path place) = [] := by
  rw [startOf, if_pos (isAbsolute_path place)]

theorem exists_intercalate_concat (sep : List Char) (front : List (List Char))
    (last : List Char) : ∃ start, sep.intercalate (front ++ [last]) = start ++ last := by
  induction front with
  | nil => exact ⟨[], by simp [List.intercalate]⟩
  | cons cs front ih =>
    obtain ⟨start, hstart⟩ := ih
    exact ⟨cs ++ sep ++ start, by
      cases front <;> simp_all [List.intercalate, List.append_assoc]⟩

theorem endsWith_slash_path {last : String} (hlast : IsName last) :
    (Location.path (front ++ [last])).endsWith "/" = false := by
  obtain ⟨start, hstart⟩ := exists_intercalate_concat ['/'] (front.map String.toList) last.toList
  rw [String.endsWith_eq_endsWith_toSlice, String.Slice.endsWith_string_eq_false_iff,
    String.copy_toSlice, toList_path, List.map_append, List.map_singleton, hstart]
  rintro ⟨pre, hpre⟩
  have hend : (pre ++ ['/']).getLast? = (('/' :: start) ++ last.toList).getLast? :=
    congrArg List.getLast? hpre
  have hne : last.toList ≠ [] := by
    simpa using hlast.not_empty
  rw [List.getLast?_concat, List.getLast?_append, List.getLast?_eq_some_getLast hne] at hend
  have hslash : last.toList.getLast hne = '/' := (Option.some.inj hend).symm
  exact hlast.no_slash (hslash ▸ List.getLast_mem hne)

/-- Why a path cannot be followed, wherever it leads: it is too long or has a zero byte, or a name in
it is too long. -/
def fits (place : Location) : Except FileError Unit :=
  match checkPath place.path with
  | .error e => .error e
  | .ok () => if place.any (maxName < ·.utf8ByteSize) then .error .nameTooLong else .ok ()

theorem fits_of_toBool (h : (fits place).toBool = true) : fits place = .ok () := by
  cases hfits : fits place with
  | ok _ => rfl
  | error e =>
    rw [hfits] at h
    cases h

theorem follow_plain {x : FileTree} {links : Nat} {here : Location}
    (hget : t.get? (here ++ place) = some x) (hx : x.isLink = false)
    (h : ∀ name ∈ place, IsName name) :
    t.follow links here place =
      if place.any (maxName < ·.utf8ByteSize) then .error .nameTooLong
      else .ok (here ++ place) := by
  induction place generalizing here with
  | nil => simp [follow]
  | cons name place ih =>
    have hname := h name (by simp)
    rw [follow, if_neg (not_or.mpr ⟨hname.not_empty, hname.not_same⟩), if_neg hname.not_up,
      List.any_cons]
    by_cases hlong : maxName < name.utf8ByteSize
    · simp [hlong]
    · rw [if_neg hlong, decide_eq_false hlong, Bool.false_or]
      have hrest : t.get? ((here ++ [name]) ++ place) = some x := by
        rw [List.append_assoc]
        exact hget
      cases place with
      | nil =>
        rw [List.append_nil] at hrest
        rw [hrest]
        cases x with
        | dir entries => simp [follow]
        | link target => cases hx
        | file | device => simp
      | cons name' place =>
        obtain ⟨entries, hdir⟩ := hasDir_of_get?_append hrest (by simp)
        rw [hdir]
        simp only
        rw [ih hrest fun n hn => h n (List.mem_cons_of_mem _ hn), List.append_assoc]
        rfl

theorem follow_from_root {x : FileTree} (hget : t.get? place = some x) (hx : x.isLink = false)
    (h : ∀ name ∈ place, IsName name) (links : Nat) :
    t.follow links [] place =
      if place.any (maxName < ·.utf8ByteSize) then .error .nameTooLong else .ok place :=
  follow_plain hget hx h

/-- The path of a place leads to it through directories, unless it is too long. -/
theorem canonical_path {x : FileTree} (hget : t.get? place = some x) (hx : x.isLink = false)
    (hne : place ≠ []) (h : ∀ name ∈ place, IsName name) (here : Location) :
    t.canonical here (Location.path place) = (fits place).map fun _ => place := by
  rw [canonical, startOf_path, pathNames_path hne h, follow, if_pos (Or.inl rfl),
    follow_from_root hget hx h, fits]
  cases checkPath (Location.path place) with
  | error e => rfl
  | ok _ =>
    simp only [bind, Except.bind]
    split <;> rfl

theorem parentOf_path {x : FileTree} {last : String} (hget : t.get? (front ++ [last]) = some x)
    (h : ∀ name ∈ front ++ [last], IsName name) (here : Location) :
    t.parentOf here (Location.path (front ++ [last])) =
      (fits (front ++ [last])).map fun _ => (front, some last) := by
  have hnames := pathNames_path (by simp) h
  rw [← List.cons_append] at hnames
  have hlast := h last (by simp)
  have htrimmed := trimmed_eq hnames hlast.not_empty
  obtain ⟨entries, hdir⟩ := hasDir_of_get?_append hget (by simp)
  have hfollow := follow_from_root hdir rfl (fun n hn => h n (List.mem_append_left _ hn)) maxLinks
  have hskip : t.follow maxLinks [] ("" :: front) = t.follow maxLinks [] front := by
    rw [follow, if_pos (Or.inl rfl)]
  have hreal : ¬ (last = "" ∨ last = "." ∨ last = "..") :=
    not_or.mpr ⟨hlast.not_empty, not_or.mpr ⟨hlast.not_same, hlast.not_up⟩⟩
  have hname : ("" :: (front ++ [last])).getLast?.getD "" = last := by
    rw [← List.cons_append, List.getLast?_concat]
    rfl
  unfold trimmed at htrimmed
  rw [parentOf, startOf_path, htrimmed, fits]
  cases checkPath (Location.path (front ++ [last])) with
  | error e => rfl
  | ok _ =>
    simp only [bind, Except.bind, List.dropLast_concat, hskip, hfollow, List.any_append]
    by_cases hlong : front.any (maxName < ·.utf8ByteSize)
    · simp [hlong, Except.map]
    · by_cases hlonglast : maxName < last.utf8ByteSize
      · simp [hlong, hlonglast, hdir, hreal, hname, Except.map]
      · simp [hlong, hlonglast, hdir, hreal, hname, Except.map]

/-- A file is written in the place that its path is that of, unless the path is too long. -/
theorem filePlace_path {x : FileTree} (hget : t.get? place = some x) (hleaf : x.isLeaf = true)
    (hne : place ≠ []) (h : ∀ name ∈ place, IsName name) (here : Location) :
    t.filePlace here (Location.path place) = (fits place).map fun _ => place := by
  obtain ⟨front, last, rfl⟩ : ∃ front last, place = front ++ [last] :=
    ⟨place.dropLast, place.getLast hne, (List.dropLast_concat_getLast hne).symm⟩
  rw [filePlace, filePlaceFrom, parentOf_path hget h]
  cases fits (front ++ [last]) with
  | error e => rfl
  | ok _ =>
    simp only [Except.map, endsWith_slash_path (h last (by simp)), hget]
    cases x with
    | file | device => simp
    | link | dir => cases hleaf

/-! ## Trees that are alike -/

/-- What matters of a tree when a path is followed. -/
def shape : FileTree → FileTree
  | .file _ _ => .file [] 0
  | .dir _ => .dir []
  | t => t

/-- Directories, links and files stand at the same places. -/
def Alike (t t' : FileTree) : Prop :=
  ∀ place, (t.get? place).map shape = (t'.get? place).map shape

namespace Alike

theorem refl (t : FileTree) : Alike t t := fun _ => rfl

theorem symm (h : Alike t t') : Alike t' t := fun place => (h place).symm

theorem trans {t'' : FileTree} (h : Alike t t') (h' : Alike t' t'') : Alike t t'' :=
  fun place => (h place).trans (h' place)

theorem hasDir (h : Alike t t') (hdir : t.HasDir place) : t'.HasDir place := by
  obtain ⟨entries, hget⟩ := hdir
  unfold HasDir
  have hplace := h place
  rw [hget] at hplace
  cases hget' : t'.get? place with
  | none => simp [hget'] at hplace
  | some x => cases x <;> simp_all [shape]

theorem link (h : Alike t t') {target : String} (hget : t.get? place = some (.link target)) :
    t'.get? place = some (.link target) := by
  have hplace := h place
  rw [hget] at hplace
  cases hget' : t'.get? place with
  | none => simp [hget'] at hplace
  | some x => cases x <;> simp_all [shape]

theorem leaf (h : Alike t t') {x : FileTree} (hget : t.get? place = some x)
    (hleaf : x.isLeaf = true) : ∃ y, t'.get? place = some y ∧ y.isLeaf = true := by
  have hplace := h place
  rw [hget] at hplace
  cases hget' : t'.get? place with
  | none => simp [hget'] at hplace
  | some y => cases x <;> cases y <;> simp_all [shape, isLeaf]

theorem leads (h : Alike t t') {links : Nat} {here there : Location} {names : List String}
    (hleads : Leads t links here names there) : Leads t' links here names there := by
  induction hleads with
  | stay => exact .stay
  | skip hname _ ih => exact .skip hname ih
  | up _ ih => exact .up ih
  | enter hname hget _ ih =>
    obtain ⟨entries, hget⟩ := h.hasDir ⟨_, hget⟩
    exact .enter hname hget ih
  | reach hname hget hleaf =>
    obtain ⟨y, hget, hleaf⟩ := h.leaf hget hleaf
    exact .reach hname hget hleaf
  | through hname hget _ ih => exact .through hname (h.link hget) ih

end Alike

/-! ## Reading and writing files -/

/-- A file is read by the path of its place, unless the path is too long. -/
theorem readBytes_path {x : FileTree} (hget : t.get? place = some x) (hx : x.isLink = false)
    (hne : place ≠ []) (h : ∀ name ∈ place, IsName name) (here : Location) :
    t.readBytes here (Location.path place) = (fits place).bind fun _ => t.bytesAt place := by
  rw [readBytes, canonical_path hget hx hne h]
  cases fits place <;> rfl

theorem writeBytes_eq_ok_iff {here : Location} {path : String} {content : List UInt8} :
    t.writeBytes here path content = .ok t' ↔
      ∃ place, t.filePlace here path = .ok place ∧ t' = t.writeAt place content := by
  unfold writeBytes
  cases t.filePlace here path with
  | error e => simp [bind, Except.bind]
  | ok place => simp [bind, Except.bind, pure, Except.pure, eq_comm]

/-- What has taken a new content: a file keeps its mode, and a device takes nothing. -/
def holding (content : List UInt8) : FileTree → FileTree
  | .file _ mode => .file content mode
  | t => t

theorem isLeaf_holding {x : FileTree} {content : List UInt8} (h : x.isLeaf = true) :
    (x.holding content).isLeaf = true := by
  cases x <;> first | rfl | cases h

/-- Files and devices show as they are. -/
theorem look?_eq_some_iff_of_isLeaf {x : FileTree} (h : x.isLeaf = true) :
    t.look? place = some x ↔ t.get? place = some x :=
  look?_eq_some_iff (by cases x <;> first | rfl | cases h)

section WriteAt

variable {x : FileTree} {content : List UInt8}

theorem not_hasDir_of_isLeaf (hget : t.get? place = some x) (hleaf : x.isLeaf = true) :
    ¬ t.HasDir place := by
  rintro ⟨entries, hdir⟩
  rw [hget] at hdir
  cases hdir
  cases hleaf

/-- Nothing stands below a file. -/
theorem get?_below_isLeaf (hget : t.get? place = some x) (hleaf : x.isLeaf = true)
    (hback : back ≠ []) : t.get? (place ++ back) = none := by
  cases hbelow : t.get? (place ++ back) with
  | none => rfl
  | some y => exact absurd (hasDir_of_get?_append hbelow hback) (not_hasDir_of_isLeaf hget hleaf)

theorem get?_writeAt (hget : t.get? place = some x) (hleaf : x.isLeaf = true) :
    (t.writeAt place content).get? place = some (x.holding content) := by
  unfold writeAt
  rw [hget]
  cases x with
  | file old mode =>
    have hset : (set (.file content mode) t (place ++ [])).get? place = some (set _ _ []) :=
      get?_set_of_some hget
    rw [List.append_nil] at hset
    rw [hset]
    rfl
  | device kind => exact hget
  | link | dir => cases hleaf

/-- Writing a file shows at no other place. -/
theorem look?_writeAt (hget : t.get? place = some x) (hleaf : x.isLeaf = true) {there : Location}
    (hne : there ≠ place) : (t.writeAt place content).look? there = t.look? there := by
  by_cases hbelow : place <+: there
  · obtain ⟨back, rfl⟩ := hbelow
    have hback : back ≠ [] := by
      rintro rfl
      exact hne (List.append_nil _)
    rw [look?_eq_none_iff.mpr (get?_below_isLeaf hget hleaf hback), look?_eq_none_iff.mpr
      (get?_below_isLeaf (get?_writeAt hget hleaf) (isLeaf_holding hleaf) hback)]
  · unfold writeAt
    rw [hget]
    cases x with
    | file old mode =>
      refine look?_set hbelow fun habove hnone => ?_
      obtain ⟨back, rfl⟩ := habove
      rw [get?_append, hnone] at hget
      cases hget
    | device kind => rfl
    | link | dir => cases hleaf

/-- What a path leads to does not depend on what is in files. -/
theorem alike_writeAt (hget : t.get? place = some x) (hleaf : x.isLeaf = true) :
    Alike t (t.writeAt place content) := by
  intro there
  by_cases hne : there = place
  · subst hne
    rw [get?_writeAt hget hleaf, hget]
    cases x <;> rfl
  · have hkept : (t.writeAt place content).look? there = t.look? there :=
      look?_writeAt hget hleaf hne
    have hlook := congrArg (Option.map shape) hkept
    have hshape : shape ∘ surface = shape := by
      funext y
      cases y <;> rfl
    simpa only [look?, Option.map_map, hshape] using hlook.symm

theorem writeBytes_path (hget : t.get? place = some x) (hleaf : x.isLeaf = true) (hne : place ≠ [])
    (h : ∀ name ∈ place, IsName name) :
    t.writeBytes [] (Location.path place) content =
      (fits place).map fun _ => t.writeAt place content := by
  rw [writeBytes, filePlace_path hget hleaf hne h]
  cases fits place <;> rfl

end WriteAt

end FileTree
end SpecUpgrade
