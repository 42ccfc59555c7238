import Mathlib.Data.List.Perm.Basic
import QeReport.Lib.JsonReading

/-! # Values equal up to the order of members

`Alike u v` says that two values are equal up to the order in which their objects list their
members, at every depth.  For values whose objects have distinct keys this is what equal normal
forms, and so equal canonical texts, mean (`canonText_eq_iff`). -/

namespace QeReport

mutual

/-- Equal up to the order of object members. -/
inductive Alike : Json → Json → Prop
  | null : Alike .null .null
  | bool (b : Bool) : Alike (.bool b) (.bool b)
  | num (n : JsNumber) : Alike (.num n) (.num n)
  | str (s : Text) : Alike (.str s) (.str s)
  | arr {items items' : List Json} (h : AlikeItems items items') : Alike (.arr items) (.arr items')
  | obj {members between members' : List (Text × Json)} (h : AlikeMembers members between)
      (hp : between.Perm members') : Alike (.obj members) (.obj members')

/-- Alike one by one. -/
inductive AlikeItems : List Json → List Json → Prop
  | nil : AlikeItems [] []
  | cons {v w : Json} {vs ws : List Json} (h : Alike v w) (hs : AlikeItems vs ws) :
      AlikeItems (v :: vs) (w :: ws)

/-- Alike one by one, under the same keys. -/
inductive AlikeMembers : List (Text × Json) → List (Text × Json) → Prop
  | nil : AlikeMembers [] []
  | cons {k : Text} {v w : Json} {ms ns : List (Text × Json)} (h : Alike v w)
      (hs : AlikeMembers ms ns) : AlikeMembers ((k, v) :: ms) ((k, w) :: ns)

end

mutual

/-- No object of the value has a key twice. -/
def Json.KeysDistinct : Json → Prop
  | .arr items => itemsDistinct items
  | .obj members => (members.map Prod.fst).Nodup ∧ membersDistinct members
  | _ => True

def itemsDistinct : List Json → Prop
  | [] => True
  | v :: vs => v.KeysDistinct ∧ itemsDistinct vs

def membersDistinct : List (Text × Json) → Prop
  | [] => True
  | (_, v) :: ms => v.KeysDistinct ∧ membersDistinct ms

end

/-! ### Equal normal forms -/

theorem normalMembers_eq (ms : List (Text × Json)) :
    normalMembers ms = ms.map (fun m => (m.1, m.2.normal)) := by
  induction ms with
  | nil => rfl
  | cons m ms ih => rw [normalMembers, ih, List.map_cons]

/-- Members with the same normal forms in some order are the same in that order. -/
theorem exists_between {ms ns : List (Text × Json)}
    (h : sortBy compareKeys (normalMembers ms) = sortBy compareKeys (normalMembers ns)) :
    ∃ ks, normalMembers ms = normalMembers ks ∧ ks.Perm ns := by
  have hns : (sortBy compareKeys (normalMembers ns)).Perm (normalMembers ns) := sortBy_perm _
  rw [← h] at hns
  have hp := (sortBy_perm _).symm.trans hns
  rw [normalMembers_eq ns] at hp
  have hcomp : Relation.Comp (· = List.map (fun m : Text × Json => (m.1, m.2.normal)) ·) List.Perm
      (normalMembers ms) ns := by
    rw [List.eq_map_comp_perm]
    exact hp
  obtain ⟨ks, hks, hperm⟩ := hcomp
  exact ⟨ks, by rw [normalMembers_eq ks]; exact hks, hperm⟩

mutual

theorem alike_of_normal : ∀ u v : Json, u.normal = v.normal → Alike u v
  | .null, v, h => by cases v <;> simp_all [Json.normal, Alike.null]
  | .bool b, v, h => by cases v <;> simp_all [Json.normal, Alike.bool]
  | .num n, v, h => by cases v <;> simp_all [Json.normal, Alike.num]
  | .str s, v, h => by cases v <;> simp_all [Json.normal, Alike.str]
  | .arr items, v, h => by
      cases v with
      | arr items' =>
          rw [Json.normal, Json.normal] at h
          exact .arr (alikeItems_of_normal items items' (Json.arr.inj h))
      | _ => simp [Json.normal] at h
  | .obj members, v, h => by
      cases v with
      | obj members' =>
          rw [Json.normal, Json.normal] at h
          obtain ⟨between, hbetween, hp⟩ := exists_between (Json.obj.inj h)
          exact .obj (alikeMembers_of_normal members between hbetween) hp
      | _ => simp [Json.normal] at h

theorem alikeItems_of_normal : ∀ us vs : List Json, normalItems us = normalItems vs →
    AlikeItems us vs
  | [], vs, h => by
      cases vs with
      | nil => exact .nil
      | cons v vs => simp [normalItems] at h
  | u :: us, vs, h => by
      cases vs with
      | nil => simp [normalItems] at h
      | cons v vs =>
          rw [normalItems, normalItems, List.cons.injEq] at h
          exact .cons (alike_of_normal u v h.1) (alikeItems_of_normal us vs h.2)

theorem alikeMembers_of_normal : ∀ ms ns : List (Text × Json),
    normalMembers ms = normalMembers ns → AlikeMembers ms ns
  | [], ns, h => by
      cases ns with
      | nil => exact .nil
      | cons n ns => simp [normalMembers] at h
  | (k, v) :: ms, ns, h => by
      cases ns with
      | nil => simp [normalMembers] at h
      | cons n ns =>
          obtain ⟨k', w⟩ := n
          rw [normalMembers, normalMembers, List.cons.injEq, Prod.mk.injEq] at h
          obtain ⟨⟨rfl, hv⟩, hs⟩ := h
          exact .cons (alike_of_normal v w hv) (alikeMembers_of_normal ms ns hs)

end

instance : Std.TransCmp (compareKeys : Text × Json → Text × Json → Ordering) :=
  inferInstanceAs (Std.TransCmp (compareOn (fun a : Text × Json => a.1)))

theorem AlikeMembers.keys {ms ns : List (Text × Json)} :
    AlikeMembers ms ns → ms.map Prod.fst = ns.map Prod.fst
  | .nil => rfl
  | .cons _ hs => by rw [List.map_cons, List.map_cons, hs.keys]

/-- The order of distinct keys does not matter to a normal form. -/
theorem normal_obj_perm {ms ns : List (Text × Json)} (hp : ms.Perm ns)
    (hd : (ms.map Prod.fst).Nodup) :
    sortBy compareKeys (normalMembers ms) = sortBy compareKeys (normalMembers ns) := by
  rw [normalMembers_eq, normalMembers_eq]
  refine sortBy_eq_of_perm (hp.map _) (fun a ha b hb hab => ?_)
  obtain ⟨x, hx, rfl⟩ := List.mem_map.mp ha
  obtain ⟨y, hy, rfl⟩ := List.mem_map.mp hb
  have hkey : x.1 = y.1 := Std.LawfulEqCmp.eq_of_compare hab
  rw [List.inj_on_of_nodup_map hd hx hy hkey]

mutual

theorem Alike.normal_eq {u v : Json} : Alike u v → u.KeysDistinct → u.normal = v.normal
  | .null, _ => rfl
  | .bool _, _ => rfl
  | .num _, _ => rfl
  | .str _, _ => rfl
  | .arr h, hd => by
      rw [Json.KeysDistinct] at hd
      rw [Json.normal, Json.normal, h.normal_eq hd]
  | .obj h hp, hd => by
      rw [Json.KeysDistinct] at hd
      rw [Json.normal, Json.normal, h.normal_eq hd.2, normal_obj_perm hp (h.keys ▸ hd.1)]

theorem AlikeItems.normal_eq {us vs : List Json} :
    AlikeItems us vs → itemsDistinct us → normalItems us = normalItems vs
  | .nil, _ => rfl
  | .cons h hs, hd => by
      rw [itemsDistinct] at hd
      rw [normalItems, normalItems, h.normal_eq hd.1, hs.normal_eq hd.2]

theorem AlikeMembers.normal_eq {ms ns : List (Text × Json)} :
    AlikeMembers ms ns → membersDistinct ms → normalMembers ms = normalMembers ns
  | .nil, _ => rfl
  | .cons h hs, hd => by
      rw [membersDistinct] at hd
      rw [normalMembers, normalMembers, h.normal_eq hd.1, hs.normal_eq hd.2]

end

/-- Equal canonical texts are equal values up to the order of members. -/
theorem canonText_eq_iff {u v : Json} (hu : u.KeysDistinct) :
    canonText u = canonText v ↔ Alike u v := by
  constructor
  · exact fun h => alike_of_normal u v (canonText_injective h)
  · intro h
    rw [← jsonText_normal, ← jsonText_normal, h.normal_eq hu]

end QeReport
