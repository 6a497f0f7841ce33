/-
# The dispatch of web service requests

`WSRequestHandler` of `webapps/webservice/webservice.py`: the registered paths are merged
into a tree, by the strings of their components, and a request walks down the tree, at each
node to the first child whose component extracts the next string of the path.

The traversal keeps what the walk writes: the calls of handlers and the error responses,
each of which is finished, both the newest first.
-/

import Mathlib.Data.List.Nodup

namespace NoxClassic.WebService

open List Option Function

/-- The data extracted from a path, by the strings of its components. -/
abbrev Data (β : Type) : Type := String → Option β

/-- `WSPathComponent`: its string, and what it extracts, or why it does not. -/
structure Component (β : Type) where
  str : String
  extract : String → Data β → Except String β

/-- `WSPathTreeNode`: the handlers by method, and the children with their components. -/
inductive Node (β η : Type) where
  | mk (handlers : List (String × η)) (children : List (Component β × Node β η))

/-- The error responses: of `request_uri_too_long`, `invalid_request`, `unsupported_method` and
`call_handler`. -/
inductive Error where
  | tooLong
  | notFound (failedPaths : List (String × String))
  | methodNotAllowed (validMethods : List String)
  | internal

/-- What a request returns: nothing, `NOT_DONE_YET` or the result of a handler. -/
inductive Ret (ρ : Type) where
  | none
  | notDoneYet
  | value (r : ρ)

/-- `WSPathTraversal`, with what was written. -/
structure Traversal (β η : Type) where
  data : Data β
  failedPaths : List (String × String)
  written : List Error
  called : List (η × Data β)

variable {β η ρ : Type}

namespace Node

def handlers : Node β η → List (String × η)
  | mk handlers _ => handlers

def children : Node β η → List (Component β × Node β η)
  | mk _ children => children

def empty : Node β η := mk [] []

/-- `add_child`, with what is then done at the child. -/
def addChild (c : Component β) (f : Node β η → Node β η) :
    List (Component β × Node β η) → List (Component β × Node β η)
  | [] => [(c, f empty)]
  | (c', n) :: cs => if c'.str = c.str then (c', f n) :: cs else (c', n) :: addChild c f cs

/-- The loop of `register` over the components. -/
def descend (f : Node β η → Node β η) : List (Component β) → Node β η → Node β η
  | [], n => f n
  | c :: cs, n => mk n.handlers (addChild c (descend f cs) n.children)

/-- `set_handler`, which raises an exception if the method has a handler or there is no `doc`. -/
def setHandler (method : String) (handler : η) (doc : Option String) (n : Node β η) : Node β η :=
  if (n.handlers.lookup method).isSome ∨ doc = none then n
  else mk ((method, handler) :: n.handlers) n.children

/-- The node at the end of a path, by the strings of the components. -/
def walkTo : List String → Node β η → Option (Node β η)
  | [], n => some n
  | x :: xs, n => (n.children.find? fun c => c.1.str = x).bind fun c => c.2.walkTo xs

/-- The handler of a path for a method. -/
def handlerAt (method : String) (xs : List String) (n : Node β η) : Option η :=
  (n.walkTo xs).bind fun n => n.handlers.lookup method

/-- The loop of `handle` over the children: the paths that failed, and the child whose component
extracted the string. -/
def tryChildren (path s : String) (d : Data β) : List (Component β × Node β η) →
    List (String × String) × Option (Component β × Node β η × β)
  | [] => ([], none)
  | (c, n) :: cs =>
    match c.extract s d with
    | .ok v => ([], some (c, n, v))
    | .error e =>
      let r := tryChildren path s d cs
      ((path ++ "/" ++ c.str, e) :: r.1, r.2)

end Node

/-- `call_handler`; `serve` is what the handlers do, `none` where they raise an exception. -/
def callHandler (serve : η → Data β → Option ρ) (h : η) (t : Traversal β η) :
    Ret ρ × Traversal β η :=
  let t := { t with called := (h, t.data) :: t.called }
  match serve h t.data with
  | some r => (.value r, t)
  | none => (.notDoneYet, { t with written := .internal :: t.written })

/-- `handle`. -/
def handle (serve : η → Data β → Option ρ) (method : String) :
    List String → String → Node β η → Traversal β η → Ret ρ × Traversal β η
  | [], _, n, t =>
    match n.handlers.lookup method with
    | some h => callHandler serve h t
    | none =>
      (.notDoneYet, { t with written := .methodNotAllowed (n.handlers.map Prod.fst) :: t.written })
  | s :: ss, path, n, t =>
    let t := if n.children.isEmpty then { t with written := .tooLong :: t.written } else t
    let (failed, found) := Node.tryChildren path s t.data n.children
    let t := { t with failedPaths := t.failedPaths ++ failed }
    let (r, t) :=
      match found with
      | some (c, n, v) => handle serve method ss (path ++ "/" ++ c.str) n
          { t with data := update t.data c.str (some v), failedPaths := [] }
      | none => (.none, t)
    if t.failedPaths.isEmpty then (r, t)
    else (.notDoneYet, { t with written := .notFound t.failedPaths :: t.written })

/-- The arguments of `register`. -/
structure Registration (β η : Type) where
  handler : η
  requestMethod : String
  pathComponents : List (Component β)
  doc : Option String

/-- `WSRequestHandler`, with the paths whose registration raised no exception. -/
structure Service (β η : Type) where
  tree : Node β η
  paths : List (String × List (Component β) × η)

/-- The strings of the components of a path. -/
def strs (cs : List (Component β)) : List String := cs.map Component.str

namespace Service

/-- `register`. -/
def register (s : Service β η) (r : Registration β η) : Service β η :=
  let method := r.requestMethod.toUpper
  { tree := s.tree.descend (Node.setHandler method r.handler r.doc) r.pathComponents
    paths :=
      if (s.tree.handlerAt method (strs r.pathComponents)).isSome ∨ r.doc = none then s.paths
      else (method, r.pathComponents, r.handler) :: s.paths }

/-- The service after some registrations. -/
def ofList (rs : List (Registration β η)) : Service β η := rs.foldl register ⟨.empty, []⟩

/-- `handle` of the request with this method and path. -/
def handle (s : Service β η) (serve : η → Data β → Option ρ) (method : String)
    (ss : List String) : Ret ρ × Traversal β η :=
  WebService.handle serve method ss "" s.tree ⟨fun _ => none, [], [], []⟩

end Service

/-- The data that the components of a path extract, if all of them do. -/
def extracts : List (Component β) → List String → Data β → Option (Data β)
  | [], [], d => some d
  | c :: cs, s :: ss, d =>
    match c.extract s d with
    | .ok v => extracts cs ss (update d c.str (some v))
    | .error _ => none
  | _, _, _ => none

/-- The component is registered after components with these strings. -/
def Placed (rs : List (Registration β η)) (xs : List String) (c : Component β) : Prop :=
  ∃ r ∈ rs, ∃ pre post, r.pathComponents = pre ++ c :: post ∧ strs pre = xs

/-- Components with one string extract alike, which the merging of the paths assumes. -/
def Alike (rs : List (Registration β η)) : Prop :=
  ∀ {xs xs' c c'}, Placed rs xs c → Placed rs xs' c' → c.str = c'.str → c.extract = c'.extract

/-- Of two components that are registered at one place only one extracts a string. -/
def Apart (rs : List (Registration β η)) : Prop :=
  ∀ {xs c c' s d v v'}, Placed rs xs c → Placed rs xs c' → c.extract s d = .ok v →
    c'.extract s d = .ok v' → c.str = c'.str

/-- The components of a path, each at its place. -/
def AllPlaced (rs : List (Registration β η)) : List String → List (Component β) → Prop
  | _, [] => True
  | p, c :: cs => Placed rs p c ∧ AllPlaced rs (p ++ [c.str]) cs

variable {rs : List (Registration β η)} {p : List String}

variable {r : Registration β η}

theorem allPlaced_of_mem (hr : r ∈ rs) {pre cs : List (Component β)}
    (h : r.pathComponents = pre ++ cs) : AllPlaced rs (strs pre) cs := by
  induction cs generalizing pre with
  | nil => trivial
  | cons c cs ih =>
    have hpre : r.pathComponents = (pre ++ [c]) ++ cs := by rw [h, append_assoc]; rfl
    have := ih hpre
    rw [strs, map_append] at this
    exact ⟨⟨r, hr, pre, cs, h, rfl⟩, this⟩

/-! ### The tree -/

section Tree

open Node

variable {c : Component β} {f : Node β η → Node β η} {xs : List String} {method : String}

theorem find?_addChild (cs : List (Component β × Node β η)) (x : String) :
    (addChild c f cs).find? (fun b => b.1.str = x) =
      if x = c.str then
        some (((cs.find? fun b => b.1.str = x).map fun b => (b.1, f b.2)).getD (c, f empty))
      else cs.find? fun b => b.1.str = x := by
  induction cs with
  | nil =>
    by_cases hx : x = c.str
    · simp [addChild, hx]
    · simp [addChild, hx, Ne.symm hx]
  | cons b cs ih =>
    obtain ⟨c', n⟩ := b
    by_cases hc : c'.str = c.str
    · by_cases hx : x = c.str
      · simp [addChild, hc, hx]
      · simp [addChild, hc, hx, Ne.symm hx]
    · rw [addChild, if_neg hc, find?_cons, find?_cons, ih]
      by_cases hx : c'.str = x
      · have hne : x ≠ c.str := hx ▸ hc
        simp [hx, hne]
      · simp [hx]

/-- The nodes below one that is changed are those of the child that is changed. -/
theorem walkTo_descend_cons (cs : List (Component β)) (n : Node β η) (x : String) :
    (descend f (c :: cs) n).walkTo (x :: xs) =
      if x = c.str then (descend f cs (((n.children.find? fun b => b.1.str = x).map
        Prod.snd).getD empty)).walkTo xs
      else n.walkTo (x :: xs) := by
  show ((addChild c (descend f cs) n.children).find? _).bind _ = _
  rw [find?_addChild]
  split_ifs with hx
  · cases n.children.find? fun b => b.1.str = x <;> rfl
  · rfl

/-- A missing node is one without handlers. -/
theorem lookup_getD (n : Node β η) :
    ((n.walkTo xs).getD empty).handlers.lookup method = n.handlerAt method xs := by
  unfold handlerAt
  cases n.walkTo xs <;> rfl

theorem handlerAt_descend (hf : ∀ n, (f n).children = n.children) (cs : List (Component β))
    (n : Node β η) : (descend f cs n).handlerAt method xs =
      if xs = strs cs then (f ((n.walkTo xs).getD empty)).handlers.lookup method
      else n.handlerAt method xs := by
  induction cs generalizing n xs with
  | nil =>
    cases xs with
    | nil => rfl
    | cons x xs =>
      show (((f n).children.find? _).bind _).bind _ = _
      rw [hf]
      rfl
  | cons c cs ih =>
    cases xs with
    | nil => rfl
    | cons x xs =>
      unfold handlerAt at ih ⊢
      rw [walkTo_descend_cons]
      by_cases hx : x = c.str
      · rw [if_pos hx, ih, walkTo]
        have hstrs : x :: xs = strs (c :: cs) ↔ xs = strs cs := by simp [strs, hx]
        cases n.children.find? fun b => b.1.str = x with
        | some b => simp only [hstrs, map_some, getD_some, bind_some]
        | none => cases xs <;> simp [hstrs, walkTo, empty, children, handlers]
      · rw [if_neg hx, if_neg (by simp [strs, hx])]

theorem lookup_setHandler (h : η) (doc : Option String) (n : Node β η) (method' : String) :
    (setHandler method h doc n).handlers.lookup method' =
      if method' = method ∧ ¬ ((n.handlers.lookup method).isSome ∨ doc = none) then some h
      else n.handlers.lookup method' := by
  unfold setHandler
  by_cases hset : (n.handlers.lookup method).isSome ∨ doc = none
  · rw [if_pos hset, if_neg fun hm => hm.2 hset]
  rw [if_neg hset]
  by_cases hm : method' = method
  · rw [if_pos ⟨hm, hset⟩, hm]
    exact lookup_cons_self
  · rw [if_neg fun h => hm h.1]
    show lookup method' ((method, h) :: n.handlers) = _
    rw [lookup_cons, beq_false_of_ne hm]

theorem children_setHandler (h : η) (doc : Option String) (n : Node β η) :
    (setHandler method h doc n).children = n.children := by
  unfold setHandler
  split_ifs <;> rfl

variable {n : Node β η}

/-- The children of a node have different strings, and were registered there. -/
structure Local (rs : List (Registration β η)) (p : List String)
    (cs : List (Component β × Node β η)) : Prop where
  nodup : (cs.map fun b => b.1.str).Nodup
  placed : ∀ b ∈ cs, Placed rs p b.1

variable {cs : List (Component β × Node β η)} {b : Component β × Node β η}

theorem mem_addChild (hb : b ∈ addChild c f cs) : b.1 = c ∨ ∃ b' ∈ cs, b'.1 = b.1 := by
  induction cs with
  | nil => exact .inl (congrArg Prod.fst (mem_singleton.1 hb))
  | cons b' cs ih =>
    rw [addChild] at hb
    split_ifs at hb with hc
    · rcases mem_cons.1 hb with rfl | hb
      · exact .inr ⟨b', mem_cons_self, rfl⟩
      · exact .inr ⟨b, mem_cons_of_mem _ hb, rfl⟩
    · rcases mem_cons.1 hb with rfl | hb
      · exact .inr ⟨_, mem_cons_self, rfl⟩
      · exact (ih hb).imp_right fun ⟨b'', hb'', he⟩ => ⟨b'', mem_cons_of_mem _ hb'', he⟩

theorem Local.addChild (h : Local rs p cs) (hc : Placed rs p c) : Local rs p (addChild c f cs) := by
  refine ⟨?_, fun b hb => ?_⟩
  · have hnodup := h.nodup
    clear h
    induction cs with
    | nil => simp [Node.addChild]
    | cons b cs ih =>
      rw [map_cons, nodup_cons] at hnodup
      rw [Node.addChild]
      split_ifs with hb
      · exact nodup_cons.2 hnodup
      · refine nodup_cons.2 ⟨fun hmem => ?_, ih hnodup.2⟩
        obtain ⟨b', hb', he⟩ := mem_map.1 hmem
        rcases mem_addChild hb' with rfl | ⟨b'', hb'', hfst⟩
        · exact hb he.symm
        · exact hnodup.1 (mem_map.2 ⟨b'', hb'', hfst ▸ he⟩)
  · rcases mem_addChild hb with he | ⟨b', hb', he⟩
    · exact he ▸ hc
    · exact he ▸ h.placed b' hb'

/-- So for every node below one. -/
def Good (rs : List (Registration β η)) (p : List String) (n : Node β η) : Prop :=
  ∀ xs m, n.walkTo xs = some m → Local rs (p ++ xs) m.children

theorem good_empty : Good rs p (empty : Node β η) := by
  intro xs m hm
  cases xs with
  | nil =>
    cases hm
    exact ⟨nodup_nil, nofun⟩
  | cons x xs => nomatch hm

/-- What is below a child. -/
theorem Good.child (h : Good rs p n) {x : String}
    (hb : n.children.find? (fun b => b.1.str = x) = some b) : Good rs (p ++ [x]) b.2 := by
  intro xs m hm
  rw [append_assoc]
  refine h (x :: xs) m ?_
  rw [walkTo, hb]
  exact hm

theorem Good.descend {cs : List (Component β)} (hf : ∀ n, (f n).children = n.children)
    (h : Good rs p n) (hcs : AllPlaced rs p cs) : Good rs p (descend f cs n) := by
  induction cs generalizing n p with intro xs m hm
  | nil =>
    cases xs with
    | nil =>
      cases hm
      exact hf n ▸ h [] n rfl
    | cons x xs =>
      refine h (x :: xs) m ?_
      rw [← hm]
      show _ = ((f n).children.find? _).bind _
      rw [hf]
      rfl
  | cons c cs ih =>
    cases xs with
    | nil =>
      cases hm
      have hn := h [] n rfl
      rw [append_nil] at hn ⊢
      exact hn.addChild hcs.1
    | cons x xs =>
      rw [walkTo_descend_cons] at hm
      split_ifs at hm with hx
      · have hnew : Good rs (p ++ [x])
            (((n.children.find? fun b => b.1.str = x).map Prod.snd).getD empty) := by
          cases hb : n.children.find? fun b => b.1.str = x with
          | none => exact good_empty
          | some b => exact h.child hb
        exact append_cons p x xs ▸ ih hnew (hx ▸ hcs.2) xs m hm
      · exact h (x :: xs) m hm

end Tree

/-! ### Registered paths -/

variable {s : Service β η} {method path : String} {ss : List String} {d : Data β}
    {cs : List (Component β)} {n m : Node β η} {t : Traversal β η} {serve : η → Data β → Option ρ}

/-- What holds after some of the registrations `rs`. -/
structure Inv (rs : List (Registration β η)) (s : Service β η) : Prop where
  good : Good rs [] s.tree
  placed : ∀ x ∈ s.paths, AllPlaced rs [] x.2.1
  handlers : ∀ method xs h, s.tree.handlerAt method xs = some h ↔
    ∃ path, (method, path, h) ∈ s.paths ∧ strs path = xs

theorem Inv.register (h : Inv rs s) (hr : r ∈ rs) : Inv rs (s.register r) := by
  have hplaced : AllPlaced rs [] r.pathComponents :=
    allPlaced_of_mem hr (nil_append r.pathComponents).symm
  refine ⟨h.good.descend (children_setHandler _ _) hplaced, fun x hx => ?_, fun method xs g => ?_⟩
  · unfold Service.register at hx
    dsimp only at hx
    split_ifs at hx
    · exact h.placed x hx
    · rcases mem_cons.1 hx with rfl | hx
      · exact hplaced
      · exact h.placed x hx
  · unfold Service.register
    dsimp only
    rw [handlerAt_descend (children_setHandler _ _), lookup_setHandler, lookup_getD, lookup_getD]
    by_cases hold : (s.tree.handlerAt r.requestMethod.toUpper (strs r.pathComponents)).isSome ∨
        r.doc = none
    · rw [if_pos hold, ← h.handlers]
      split_ifs with hxs hnew
      · exact absurd (hxs ▸ hold) hnew.2
      all_goals rfl
    · rw [if_neg hold]
      simp only [mem_cons, or_and_right, exists_or, ← h.handlers, Prod.mk.injEq]
      by_cases hnew : xs = strs r.pathComponents ∧ method = r.requestMethod.toUpper
      · obtain ⟨rfl, rfl⟩ := hnew
        have hnone : s.tree.handlerAt r.requestMethod.toUpper (strs r.pathComponents) = none :=
          not_isSome_iff_eq_none.1 fun hs => hold (.inl hs)
        rw [if_pos rfl, if_pos ⟨rfl, hold⟩, hnone]
        simp [eq_comm]
      · have hpath : ¬ ∃ path, (method = r.requestMethod.toUpper ∧ path = r.pathComponents ∧
            g = r.handler) ∧ strs path = xs :=
          fun ⟨_, ⟨hm, hp, _⟩, hxs⟩ => hnew ⟨hp ▸ hxs.symm, hm⟩
        rw [or_iff_right hpath]
        split_ifs with hxs hm
        · exact absurd ⟨hxs, hm.1⟩ hnew
        all_goals rfl

theorem inv_ofList (rs : List (Registration β η)) : Inv rs (.ofList rs) := by
  refine foldlRecOn (motive := Inv rs) rs Service.register ⟨good_empty, nofun, ?_⟩
    fun s hs r hr => hs.register hr
  intro method xs h
  cases xs <;> simp [Node.handlerAt, Node.walkTo, Node.empty, Node.children, Node.handlers]

/-! ### Requests -/

/-- Components with the same strings extract the same data. -/
theorem Alike.extracts_congr (h : Alike rs) {cs' : List (Component β)}
    (hcs : AllPlaced rs p cs) (hcs' : AllPlaced rs p cs') (hstrs : strs cs = strs cs') :
    extracts cs ss d = extracts cs' ss d := by
  induction cs generalizing p cs' ss d with
  | nil =>
    obtain rfl : cs' = [] := map_eq_nil_iff.1 hstrs.symm
    rfl
  | cons c cs ih =>
    cases cs' with
    | nil => nomatch hstrs
    | cons c' cs' =>
      obtain ⟨hstr, hstrs⟩ := cons.inj hstrs
      have he := h hcs.1 hcs'.1 hstr
      cases ss with
      | nil => rfl
      | cons s ss =>
        simp only [extracts, he, hstr]
        cases c'.extract s d with
        | error e => rfl
        | ok v => exact ih (hstr ▸ hcs.2) hcs'.2 hstrs

section Handle

open Node

variable {x : String} {bs : List (Component β × Node β η)} {b : Component β × Node β η} {v : β}

theorem tryChildren_of_mem (hb : b ∈ bs) (hv : b.1.extract x d = .ok v)
    (huniq : ∀ b' ∈ bs, ∀ v', b'.1.extract x d = .ok v' → b' = b) :
    (tryChildren path x d bs).2 = some (b.1, b.2, v) := by
  induction bs with
  | nil => nomatch hb
  | cons b' bs ih =>
    rw [forall_mem_cons] at huniq
    simp only [tryChildren]
    cases hb' : b'.1.extract x d with
    | ok v' =>
      obtain rfl := huniq.1 v' hb'
      cases hb'.symm.trans hv
      rfl
    | error e =>
      refine ih ((mem_cons.1 hb).resolve_left ?_) huniq.2
      rintro rfl
      nomatch hb'.symm.trans hv

theorem tryChildren_eq_some (h : (tryChildren path x d bs).2 = some (b.1, b.2, v)) :
    b ∈ bs ∧ b.1.extract x d = .ok v := by
  induction bs with
  | nil => nomatch h
  | cons b' bs ih =>
    obtain ⟨c', k'⟩ := b'
    simp only [tryChildren] at h
    cases hb' : c'.extract x d with rw [hb'] at h
    | ok v' =>
      cases h
      exact ⟨mem_cons_self, hb'⟩
    | error e => exact ⟨mem_cons_of_mem _ (ih h).1, (ih h).2⟩

theorem tryChildren_eq_none (h : (tryChildren path x d bs).2 = none) (hbs : bs ≠ []) :
    (tryChildren path x d bs).1 ≠ [] := by
  cases bs with
  | nil => exact absurd rfl hbs
  | cons b bs =>
    simp only [tryChildren] at h ⊢
    cases hb : b.1.extract x d with
    | ok v =>
      rw [hb] at h
      nomatch h
    | error e => nofun

theorem Local.find? (h : Local rs p bs) (hb : b ∈ bs) :
    bs.find? (fun b' => b'.1.str = b.1.str) = some b := by
  cases hf : bs.find? fun b' => b'.1.str = b.1.str with
  | none => exact absurd (find?_eq_none.1 hf b hb) (by simp)
  | some b' =>
    have hstr : b'.1.str = b.1.str := by simpa using find?_some hf
    rw [inj_on_of_nodup_map h.nodup (mem_of_find?_eq_some hf) hb hstr]

/-- The end of a path: a handler is called, or an error is written. -/
theorem failedPaths_handle_nil :
    (handle serve method [] path n t).2.failedPaths = t.failedPaths := by
  unfold handle callHandler
  split
  · dsimp only
    split <;> rfl
  · rfl

/-- A string that a child extracts. -/
theorem handle_cons_of_found (ht : t.failedPaths = [])
    (h : (tryChildren path x t.data n.children).2 = some (b.1, b.2, v)) :
    handle serve method (x :: ss) path n t =
      let r := handle serve method ss (path ++ "/" ++ b.1.str) b.2
        { t with data := update t.data b.1.str (some v) }
      if r.2.failedPaths.isEmpty then r
      else (.notDoneYet, { r.2 with written := .notFound r.2.failedPaths :: r.2.written }) := by
  have hne : n.children.isEmpty = false := by
    rw [isEmpty_eq_false_iff]
    exact ne_nil_of_mem (tryChildren_eq_some h).1
  obtain ⟨data, failedPaths, written, called⟩ := t
  obtain rfl : failedPaths = [] := ht
  rw [handle]
  simp only [hne, Bool.false_eq_true, if_false, h]

/-- **A path that fits is walked to its end.** -/
theorem handle_of_extracts (halike : Alike rs) (hapart : Apart rs) (hgood : Good rs p n)
    (hcs : AllPlaced rs p cs) (hm : n.walkTo (strs cs) = some m)
    (hd : extracts cs ss t.data = some d) (ht : t.failedPaths = []) :
    handle serve method ss path n t = handle serve method [] "" m { t with data := d } := by
  induction cs generalizing p n ss t path with
  | nil =>
    cases ss with
    | nil =>
      cases hm
      cases hd
      rfl
    | cons x ss => nomatch hd
  | cons c cs ih =>
    cases ss with
    | nil => nomatch hd
    | cons x ss =>
      rw [strs, map_cons, walkTo, bind_eq_some_iff] at hm
      obtain ⟨b, hb, hm⟩ := hm
      have hstr : b.1.str = c.str := by simpa using find?_some hb
      have hmem := mem_of_find?_eq_some hb
      have hlocal := hgood [] n rfl
      simp only [extracts] at hd
      cases hv : c.extract x t.data with rw [hv] at hd
      | error e => nomatch hd
      | ok v =>
        have hbv : b.1.extract x t.data = .ok v := halike (hlocal.placed b hmem) hcs.1 hstr ▸ hv
        have hfound : (tryChildren path x t.data n.children).2 = some (b.1, b.2, v) :=
          tryChildren_of_mem hmem hbv fun b' hb' v' hv' =>
            inj_on_of_nodup_map hlocal.nodup hb' hmem
              (hapart (hlocal.placed b' hb') (hlocal.placed b hmem) hv' hbv)
        rw [handle_cons_of_found ht hfound, hstr, ih (hgood.child hb) hcs.2 hm
          (t := { t with data := update t.data c.str (some v) }) hd ht]
        simp only [failedPaths_handle_nil, ht, isEmpty_nil, if_true]

/-- **A request is walked to the end of a path that fits, or an error is written.** -/
theorem handle_cases (serve : η → Data β → Option ρ) (method : String) (ss : List String)
    (path : String) (hgood : Good rs p n) (ht : t.failedPaths = []) :
    (∃ cs m d, AllPlaced rs p cs ∧ n.walkTo (strs cs) = some m ∧
      extracts cs ss t.data = some d ∧
      handle serve method ss path n t = handle serve method [] "" m { t with data := d }) ∨
    ((handle serve method ss path n t).2.called = t.called ∧
      (handle serve method ss path n t).2.written ≠ []) := by
  induction ss generalizing p n t path with
  | nil => exact .inl ⟨[], n, t.data, trivial, rfl, rfl, rfl⟩
  | cons x ss ih =>
    have hlocal := hgood [] n rfl
    rw [append_nil] at hlocal
    cases hfound : (tryChildren path x t.data n.children).2 with
    | none =>
      rw [handle]
      cases hbs : n.children with
      | nil => simp [tryChildren, ht]
      | cons b bs =>
        have hfailed := tryChildren_eq_none hfound (hbs ▸ cons_ne_nil _ _)
        rw [hbs] at hfound hfailed
        simp [hfound, ht, hfailed]
    | some b =>
      obtain ⟨c, k, v⟩ := b
      obtain ⟨hmem, hv⟩ := tryChildren_eq_some (b := (c, k)) hfound
      rw [handle_cons_of_found (b := (c, k)) ht hfound]
      have hb := hlocal.find? hmem
      have hih := ih (path ++ "/" ++ c.str) (hgood.child hb)
        (t := { t with data := update t.data c.str (some v) }) ht
      dsimp only at hih hv ⊢
      rcases hih with ⟨cs, m, d, hcs, hm, hd, he⟩ | ⟨hcalled, hwritten⟩
      · refine .inl ⟨c :: cs, m, d, ⟨hlocal.placed _ hmem, hcs⟩, ?_, ?_, ?_⟩
        · rw [strs, map_cons, walkTo, hb]
          exact hm
        · simp only [extracts, hv]
          exact hd
        · rw [he, failedPaths_handle_nil, if_pos]
          rw [ht]
          rfl
      · right
        split_ifs
        · exact ⟨hcalled, hwritten⟩
        · exact ⟨hcalled, nofun⟩

end Handle

/-- **Requests are answered.**  For registrations in which components with one string extract
alike: at most one handler is called, that of a registered path for the method whose components
all extract, and then the dispatcher writes an error only if the handler raises an exception; if
none is called, an error response is written.  Where moreover no two components at one place
extract the same string, the handler of each path that fits is called. -/
theorem requests_answered (halike : Alike rs) (serve : η → Data β → Option ρ) (method : String)
    (ss : List String) :
    ((∃ path h d, (method, path, h) ∈ (Service.ofList rs).paths ∧
        extracts path ss (fun _ => none) = some d ∧
        ((Service.ofList rs).handle serve method ss).2.called = [(h, d)] ∧
        ((Service.ofList rs).handle serve method ss).2.written.length =
          if (serve h d).isSome then 0 else 1) ∨
      ((Service.ofList rs).handle serve method ss).2.called = [] ∧
        ((Service.ofList rs).handle serve method ss).2.written ≠ []) ∧
    (Apart rs → ∀ path h d, (method, path, h) ∈ (Service.ofList rs).paths →
      extracts path ss (fun _ => none) = some d →
      ((Service.ofList rs).handle serve method ss).2.called = [(h, d)]) := by
  have hinv := inv_ofList rs
  refine ⟨?_, fun hapart path h d hpath hd => ?_⟩
  · rcases handle_cases serve method ss "" hinv.good (t := ⟨fun _ => none, [], [], []⟩) rfl with
      ⟨cs, m, d, hcs, hm, hd, he⟩ | hmiss
    · rw [Service.handle, he]
      cases hh : m.handlers.lookup method with
      | none =>
        simp [handle, hh]
      | some h =>
        -- the handler is that of a registered path, which extracts as the nodes do
        have hat : (Service.ofList rs).tree.handlerAt method (strs cs) = some h := by
          rw [Node.handlerAt, hm]
          exact hh
        obtain ⟨path, hpath, hstrs⟩ := (hinv.handlers _ _ _).1 hat
        rw [← halike.extracts_congr (hinv.placed _ hpath) hcs hstrs] at hd
        refine .inl ⟨path, h, d, hpath, hd, ?_⟩
        simp only [handle, hh, callHandler]
        cases serve h d <;> exact ⟨rfl, rfl⟩
    · exact .inr hmiss
  · obtain ⟨m, hm, hh⟩ := bind_eq_some_iff.1 ((hinv.handlers _ _ _).2 ⟨path, hpath, rfl⟩)
    rw [Service.handle, handle_of_extracts halike hapart hinv.good (hinv.placed _ hpath) hm hd rfl]
    simp only [handle, hh, callHandler]
    cases serve h d <;> rfl

/-- `WSPathStaticString`. -/
def staticString (str : String) : Component String where
  str := str
  extract pc _ := if pc = str then .ok pc else .error ("'" ++ pc ++ "' != '" ++ str ++ "'")

/-- `WSPathArbitraryString`. -/
def arbitraryString (name : String) : Component String := ⟨name, fun pc _ => .ok pc⟩

theorem staticString_ok {str pc v : String} {d : Data String}
    (h : (staticString str).extract pc d = .ok v) : str = pc := by
  simp only [staticString] at h
  split_ifs at h with hpc
  exact hpc.symm

section Static

variable {rs : List (Registration String η)} {xs : List String} {c : Component String}

theorem Placed.static (hc : Placed rs xs c)
    (h : ∀ r ∈ rs, ∀ c ∈ r.pathComponents, c = staticString c.str) : c = staticString c.str := by
  obtain ⟨r, hr, pre, post, he, -⟩ := hc
  exact h r hr c (he ▸ mem_append_right _ mem_cons_self)

section

variable (h : ∀ r ∈ rs, ∀ c ∈ r.pathComponents, c = staticString c.str)
include h

theorem alike_of_static :
    Alike rs := by
  intro xs xs' c c' hc hc' hstr
  rw [hc.static h, hc'.static h, hstr]

theorem apart_of_static :
    Apart rs := by
  intro xs c c' s d v v' hc hc' hv hv'
  rw [hc.static h] at hv
  rw [hc'.static h] at hv'
  exact (staticString_ok hv).trans (staticString_ok hv').symm

end

end Static

theorem toUpper_get : "get".toUpper = "GET" := by decide +kernel

/-- A path whose first component is `c`, and one that begins with `a`. -/
def twoPaths (c : Component String) : List (Registration String ℕ) :=
  [⟨1, "get", [c, staticString "x"], some ""⟩,
    ⟨2, "get", [staticString "a", staticString "y"], some ""⟩]

theorem mem_twoPaths (c : Component String) :
    ("GET", [staticString "a", staticString "y"], 2) ∈ (Service.ofList (twoPaths c)).paths := by
  have hne : strs [staticString "a", staticString "y"] ≠ strs [c, staticString "x"] := by
    simp [strs, staticString]
  simp only [Service.ofList, twoPaths, foldl, Service.register, toUpper_get,
    handlerAt_descend (children_setHandler _ _), if_neg hne]
  exact mem_cons_self

/-- The hypotheses of `requests_answered` are satisfiable: the second of two paths is asked
for. -/
theorem requests_answered_two : ∃ d,
    ((Service.ofList (twoPaths (staticString "a"))).handle (fun _ _ => some ()) "GET"
      ["a", "y"]).2.called = [(2, d)] := by
  have hstatic : ∀ r ∈ twoPaths (staticString "a"), ∀ c ∈ r.pathComponents,
      c = staticString c.str := by simp [twoPaths, staticString]
  exact ⟨_, (requests_answered (alike_of_static hstatic) (fun _ _ => some ()) "GET"
    ["a", "y"]).2 (apart_of_static hstatic) _ 2 _ (mem_twoPaths _) rfl⟩

/-- **The first component that extracts is taken.**  All components of the second path extract, and
its handler is not called. -/
theorem first_component_taken : ∃ d,
    ("GET", [staticString "a", staticString "y"], 2) ∈
      (Service.ofList (twoPaths (arbitraryString "<name>"))).paths ∧
    extracts [staticString "a", staticString "y"] ["a", "y"] (fun _ => none) = some d ∧
    ((Service.ofList (twoPaths (arbitraryString "<name>"))).handle (fun _ _ => some ()) "GET"
      ["a", "y"]).2.called = [] :=
  ⟨_, mem_twoPaths _, rfl, rfl⟩

end NoxClassic.WebService
