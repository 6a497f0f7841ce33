/-
# Addresses of the data cache

Which ids the address tables list, against the most recent update of each id.
`update_address` gives its own parameter `type` to `get_address`, which puts the
old type there, and goes on with `oldtype`, which is still 0: the old entry stays,
and the new name is entered under the old type.  The tables are right as long as
no id is updated that has an address.
-/

import NoxClassic.DataCache.Model

namespace NoxClassic.DataCache.Addresses

open Function Option Lib

/-- A call that is about an address principal. -/
inductive Call where
  | update (id : ℤ) (name : String) (type : ℤ)
  | delete (id : ℤ)

variable {f : Formats} {d : Datatypes} {a : Addresses} {cur : ℤ → Option (ℤ × String)} {id type : ℤ}
  {name : String}

/-- One call. -/
def call (f : Formats) (d : Datatypes) (a : Addresses) : Call → Option Addresses
  | .update id name type => a.updateAddress f d id name type
  | .delete id => a.deletePrincipal f d id

/-- The name is a MAC or a CIDR, as its type says. -/
def Call.Valid (f : Formats) (d : Datatypes) : Call → Prop
  | .update _ name type => name ≠ "" ∧
      (type = d.macType ∧ (f.ethernetaddr name).isSome ∨
        type = d.ipv4CidrType ∧ (f.cidrIpaddr name).isSome)
  | .delete _ => True

/-- The id that is updated has no address. -/
def Call.New (a : Addresses) : Call → Prop
  | .update id _ _ => a.addressTypes id = none
  | .delete _ => True

/-- What a call makes of the most recent updates. -/
def Call.track (cur : ℤ → Option (ℤ × String)) : Call → ℤ → Option (ℤ × String)
  | .update id name type => Function.update cur id (some (type, name))
  | .delete id => Function.update cur id none

/-- The most recent update of each id, unless the id was deleted since. -/
def current (calls : List Call) : ℤ → Option (ℤ × String) := calls.foldl Call.track fun _ => none

/-- The MAC an update gives. -/
def macOf (f : Formats) (d : Datatypes) (o : Option (ℤ × String)) : Option ℕ :=
  o.bind fun c => if c.1 = d.macType then f.ethernetaddr c.2 else none

/-- The CIDR an update gives. -/
def cidrOf (f : Formats) (d : Datatypes) (o : Option (ℤ × String)) : Option Cidr :=
  o.bind fun c => if c.1 = d.ipv4CidrType then f.cidrIpaddr c.2 else none

/-- **The id is listed under its address**, once, and under no other. -/
structure Listed (f : Formats) (d : Datatypes) (a : Addresses) (id : ℤ)
    (o : Option (ℤ × String)) : Prop where
  mac : ∀ key, (a.dladdrToId key).count id = if macOf f d o = some key then 1 else 0
  ip : ∀ key, (a.nwaddrToId key).count id =
    if (cidrOf f d o).any fun c => c.getPrefixLen = 32 && c.addr = key then 1 else 0
  cidr : a.idToCidr.lookup id = (cidrOf f d o).filter fun c => c.getPrefixLen ≠ 32

/-- The tables and the most recent updates. -/
structure Current (f : Formats) (d : Datatypes) (a : Addresses)
    (cur : ℤ → Option (ℤ × String)) : Prop where
  types : ∀ id, a.addressTypes id = (cur id).map Prod.fst
  names : ∀ id, a.idToName id = (cur id).map Prod.snd
  valid : ∀ id c, cur id = some c → (Call.update id c.2 c.1).Valid f d
  listed : ∀ id, Listed f d a id (cur id)

/-- The tables have the same entries for the id. -/
def Same (a a' : Addresses) (id : ℤ) : Prop :=
  a'.addressTypes id = a.addressTypes id ∧ a'.idToName id = a.idToName id ∧
    (∀ key, (a'.dladdrToId key).count id = (a.dladdrToId key).count id) ∧
    (∀ key, (a'.nwaddrToId key).count id = (a.nwaddrToId key).count id) ∧
    a'.idToCidr.lookup id = a.idToCidr.lookup id

/-- The entries of one id change. -/
theorem Current.change {a' : Addresses} {o : Option (ℤ × String)} (h : Current f d a cur)
    (hsame : ∀ j, j ≠ id → Same a a' j) (htype : a'.addressTypes id = o.map Prod.fst)
    (hname : a'.idToName id = o.map Prod.snd)
    (hvalid : ∀ c, o = some c → (Call.update id c.2 c.1).Valid f d)
    (hlisted : Listed f d a' id o) : Current f d a' (update cur id o) := by
  constructor <;> intro j <;> rcases eq_or_ne j id with rfl | hj
  · simpa using htype
  · simpa [hj, ← h.types] using (hsame j hj).1
  · simpa using hname
  · simpa [hj, ← h.names] using (hsame j hj).2.1
  · simpa using hvalid
  · simpa [hj] using h.valid j
  · simpa using hlisted
  · obtain ⟨-, -, hdl, hnw, hcidr⟩ := hsame j hj
    obtain ⟨hmac, hip, hc⟩ := h.listed j
    rw [update_of_ne hj]
    exact ⟨fun key => hdl key ▸ hmac key, fun key => hnw key ▸ hip key, hcidr ▸ hc⟩

theorem updateAddress_of_new (hnew : a.addressTypes id = none) (hname : name ≠ "") :
    a.updateAddress f d id name type =
      let b := { a with
        idToName := update a.idToName id (some name)
        addressTypes := update a.addressTypes id (some type) }
      if type = d.macType then b.addDladdrId f id name
      else if type = d.ipv4CidrType then b.addCidrId f id name
      else some b := by
  simp [updateAddress, getAddress, hnew, hname]

theorem Current.update (h : Current f d a cur) (hnew : a.addressTypes id = none)
    (hvalid : (Call.update id name type).Valid f d) :
    ∃ a', a.updateAddress f d id name type = some a' ∧
      Current f d a' (update cur id (some (type, name))) := by
  have hcur : cur id = none := by simpa [h.types] using hnew
  obtain ⟨hmac, hip, hcidr⟩ := h.listed id
  simp only [hcur, macOf, cidrOf, bind_none] at hmac hip hcidr
  have hne := d.mac_ne_cidr
  have hv := hvalid
  obtain ⟨hname, ⟨rfl, hkey⟩ | ⟨rfl, hkey⟩⟩ := hv <;> rw [updateAddress_of_new hnew hname]
  · obtain ⟨key, hkey⟩ := isSome_iff_exists.1 hkey
    refine ⟨_, by simp [addDladdrId, hkey]; rfl, ?_⟩
    refine h.change (fun j hj => ?_) (by simp) (by simp) (by simpa using hvalid) ⟨?_, ?_, ?_⟩
    · simp [Same, hj, update_apply]
      grind
    · simp [macOf, hkey, update_apply]
      grind
    · simpa [cidrOf, hne] using hip
    · simpa [cidrOf, hne] using hcidr
  · obtain ⟨c, hkey⟩ := isSome_iff_exists.1 hkey
    by_cases h32 : c.getPrefixLen = 32
    · refine ⟨_, by simp [addCidrId, hkey, h32, hne.symm]; rfl, ?_⟩
      refine h.change (fun j hj => ?_) (by simp) (by simp) (by simpa using hvalid) ⟨?_, ?_, ?_⟩
      · simp [Same, hj, update_apply]
        grind
      · simpa [macOf, hne.symm] using hmac
      · simp [cidrOf, hkey, h32, update_apply]
        grind
      · simpa [cidrOf, hkey, h32, Option.filter] using hcidr
    · refine ⟨_, by simp [addCidrId, hkey, h32, hne.symm]; rfl, ?_⟩
      refine h.change (fun j hj => ?_) (by simp) (by simp) (by simpa using hvalid) ⟨?_, ?_, ?_⟩
      · simp [Same, hj, AList.lookup_insert_ne]
      · simpa [macOf, hne.symm] using hmac
      · simpa [cidrOf, hkey, h32] using hip
      · simp [cidrOf, hkey, h32, Option.filter]

theorem Current.delete (h : Current f d a cur) (id : ℤ) :
    ∃ a', a.deletePrincipal f d id = some a' ∧ Current f d a' (Function.update cur id none) := by
  obtain ⟨hmac, hip, hcidr⟩ := h.listed id
  have htype := h.types id
  have hname := h.names id
  have hne := d.mac_ne_cidr
  cases hcur : cur id with
  | none =>
    rw [hcur] at htype hname hmac hip hcidr
    refine ⟨_, by simp [deletePrincipal, getAddress, htype]; rfl, ?_⟩
    refine h.change (fun j hj => ?_) (by simpa using htype) (by simp) nofun ⟨hmac, hip, hcidr⟩
    simp [Same, hj]
  | some c =>
    obtain ⟨type, name⟩ := c
    rw [hcur] at htype hname hmac hip hcidr
    simp only [deletePrincipal, getAddress, htype, hname]
    obtain ⟨-, ⟨rfl, hkey⟩ | ⟨rfl, hkey⟩⟩ := h.valid id _ hcur
    · obtain ⟨key, hkey⟩ := Option.isSome_iff_exists.1 hkey
      simp only [macOf, cidrOf, Option.bind_some, hne, if_true, if_false, hkey] at hmac hip hcidr
      have hnil : a.dladdrToId key ≠ [] := by
        intro hnil
        simpa [hnil] using hmac key
      refine ⟨_, by simp [removeAddrBinding, removeDladdrId, hkey, hnil]; rfl, ?_⟩
      refine h.change (fun j hj => ?_) (by simp) (by simp) nofun ⟨fun key' => ?_, hip, hcidr⟩
      · simp [Same, hj, Function.update_apply]
        grind
      · simp [macOf, Function.update_apply]
        grind
    · obtain ⟨c, hkey⟩ := Option.isSome_iff_exists.1 hkey
      simp only [macOf, cidrOf, Option.bind_some, hne.symm, if_true, if_false, hkey]
        at hmac hip hcidr
      by_cases h32 : c.getPrefixLen = 32
      · have hnil : a.nwaddrToId c.addr ≠ [] := by
          intro hnil
          simpa [hnil, h32] using hip c.addr
        refine ⟨_, by simp [removeAddrBinding, removeCidrId, hkey, hnil, h32, hne.symm]; rfl, ?_⟩
        refine h.change (fun j hj => ?_) (by simp) (by simp) nofun ⟨hmac, fun key' => ?_, ?_⟩
        · simp [Same, hj, Function.update_apply]
          grind
        · simp [cidrOf, Function.update_apply]
          grind
        · simpa [cidrOf, h32, Option.filter] using hcidr
      · refine ⟨_, by simp [removeAddrBinding, removeCidrId, hkey, h32, hne.symm]; rfl, ?_⟩
        refine h.change (fun j hj => ?_) (by simp) (by simp) nofun ⟨hmac, ?_, ?_⟩
        · simp [Same, hj, AList.lookup_erase_ne]
        · simpa [cidrOf, h32] using hip
        · simp [cidrOf]

/-- **A run of calls**, none of which updates an id that has an address. -/
theorem Current.run {calls : List Call} (h : Current f d a cur) (hvalid : ∀ c ∈ calls, c.Valid f d)
    (hnew : Along (call f d) Call.New a calls) :
    ∃ a', run (call f d) a calls = some a' ∧ Current f d a' (calls.foldl Call.track cur) := by
  induction calls generalizing a cur with
  | nil => exact ⟨a, rfl, h⟩
  | cons c calls ih =>
    rw [List.forall_mem_cons] at hvalid
    have hstep : ∃ a', call f d a c = some a' ∧ Current f d a' (Call.track cur c) := by
      cases c with
      | update id name type => exact h.update hnew.1 hvalid.1
      | delete id => exact h.delete id
    obtain ⟨a1, h1, hc1⟩ := hstep
    obtain ⟨a2, h2, hc2⟩ := ih hc1 hvalid.2 (hnew.2 a1 h1)
    exact ⟨a2, run_cons_eq_some.2 ⟨a1, h1, h2⟩, hc2⟩

/-- **Addresses are indexed by their current value**, in every run of calls with valid names in
which an id is updated only while it has no address: the calls go through, and each id is listed
once under the address its most recent update gave it, and nowhere if it was deleted since. -/
theorem addresses_current (f : Formats) (d : Datatypes) {calls : List Call}
    (hvalid : ∀ c ∈ calls, c.Valid f d) (hnew : Along (call f d) Call.New .empty calls) :
    ∃ a, run (call f d) .empty calls = some a ∧ ∀ id, Listed f d a id (current calls id) := by
  have hinit : Current f d .empty fun _ => none :=
    ⟨fun _ => rfl, fun _ => rfl, nofun, fun _ => ⟨fun _ => rfl, fun _ => rfl, rfl⟩⟩
  obtain ⟨a, ha, hc⟩ := hinit.run hvalid hnew
  exact ⟨a, ha, hc.listed⟩

/-- The codes before the database has given others. -/
def defaults : Datatypes := ⟨-7, -6, -1, -2, by decide⟩

/-- Two MACs and a CIDR. -/
def formats : Formats where
  ethernetaddr name :=
    if name = "00:00:00:00:00:01" then some 1
    else if name = "00:00:00:00:00:02" then some 2 else none
  cidrIpaddr name := if name = "10.0.0.0/8" then some ⟨0x0a000000, 0xff000000⟩ else none

/-- The hypotheses of `addresses_current` are satisfiable: a MAC, deleted before the id becomes a
CIDR. -/
theorem addresses_current_deleted : ∃ a, run (call formats defaults) .empty
      [.update 5 "00:00:00:00:00:01" (-1), .delete 5, .update 5 "10.0.0.0/8" (-2)] = some a ∧
    ∀ id, Listed formats defaults a id (current [.update 5 "00:00:00:00:00:01" (-1), .delete 5,
      .update 5 "10.0.0.0/8" (-2)] id) := by
  refine addresses_current formats defaults (by simp [Call.Valid, defaults, formats]) ?_
  refine ⟨rfl, fun a ha => ⟨trivial, fun b hb => ⟨?_, fun _ _ => trivial⟩⟩⟩
  cases ha
  cases hb
  rfl

/-- **A stale address.**  The second MAC given to an id does not replace the first: the id is
listed under both. -/
theorem stale_address : let calls : List Call :=
      [.update 5 "00:00:00:00:00:01" (-1), .update 5 "00:00:00:00:00:02" (-1)]
    (∀ c ∈ calls, c.Valid formats defaults) ∧ macOf formats defaults (current calls 5) = some 2 ∧
      (run (call formats defaults) .empty calls).map
        (fun a => (a.dladdrToId 1, a.dladdrToId 2)) = some ([5], [5]) := by
  refine ⟨by simp [Call.Valid, defaults, formats], rfl, by decide +kernel⟩

end NoxClassic.DataCache.Addresses
