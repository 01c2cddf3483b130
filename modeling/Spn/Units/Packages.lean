import Spn.Link.Closure
import Spn.Options.Reflect

/-! # Package units

`unit/graph.c`: a unit for every package a build needs. `add_unit` makes a unit once, and its kinds
and its fingerprint are fixed then; `drain` follows the edges whose kind is among the kinds. The
units of the target builds come first, then what their scripts depend on in the metaprogram build,
then the owners of scripts that have no unit there yet.
-/
namespace Spn.Units

open Function Relation
open Spn.Resolve (DepKind PkgId ResolvedDep)
open Spn.Lib (Acyclic Table acyclic_of_rank)
open Spn.Options (Build Digest FingerprintInput Graph Node fingerprint_returns numbering plainBuild)
open Spn.Link (PkgDep)

/-- `spn_pkg_unit_id_t`. Builds are told apart by their ids. -/
@[ext] structure UnitId where
  pkg : PkgId
  build : ℕ
  deriving DecidableEq

/-- `spn_dep_kind_bit`. -/
def kindBit : DepKind → UInt32
  | .package => 1
  | .build => 2
  | .test => 4

/-- What is read of `spn_loaded_pkg_t`: the sources of its two scripts. -/
structure LoadedPkg where
  configure : List Str
  build : List Str

/-- `pkg_has_scripts`. -/
def pkgHasScripts (loaded : LoadedPkg) : Bool := loaded.configure ≠ [] || loaded.build ≠ []

/-- What is read and written of `spn_pkg_unit_t`. -/
structure PkgUnit where
  kinds : UInt32
  deps : List (PkgDep UnitId)
  metaprogram : Option UnitId
  fingerprint : ℕ

/-- What is read of `spn_session_t`: what a fingerprint is made of, among it the resolution, the
loaded packages, the builds of the plans and the metaprogram build, and what each build is. -/
structure Session where
  content : Spn.Options.Session
  packages : PkgId → Option LoadedPkg
  plans : List ℕ
  metaprogram : ℕ
  builds : ℕ → Build

/-- `units.packages`, an ordered map, `fingerprints` for each build, and the units that are
pending. -/
structure State where
  order : List UnitId
  unit : UnitId → PkgUnit
  prints : ℕ → Table PkgId ℕ
  pending : List UnitId

def State.empty : State := ⟨[], fun _ => ⟨0, [], none, 0⟩, fun _ => ∅, []⟩

/-- The unit is put in the map with its fingerprint and is pending. -/
def State.insert (st : State) (uid : UnitId) (kinds : UInt32) (print : ℕ × Table PkgId ℕ) :
    State where
  order := st.order ++ [uid]
  unit := update st.unit uid ⟨kinds, [], none, print.1⟩
  prints := update st.prints uid.build print.2
  pending := st.pending ++ [uid]

/-- `sp_da_push(unit->deps, dep)`. -/
def State.pushDep (st : State) (uid : UnitId) (dep : PkgDep UnitId) : State :=
  { st with
    unit := update st.unit uid { st.unit uid with deps := (st.unit uid).deps ++ [dep] } }

/-- `unit->metaprogram = ...`. -/
def State.setMetaprogram (st : State) (uid world : UnitId) : State :=
  { st with unit := update st.unit uid { st.unit uid with metaprogram := some world } }

namespace State

variable (st : State) (uid : UnitId)

theorem unit_insert_self (kinds : UInt32) (print : ℕ × Table PkgId ℕ) :
    (st.insert uid kinds print).unit uid = ⟨kinds, [], none, print.1⟩ :=
  update_self uid _ st.unit

theorem unit_pushDep_of_ne (dep : PkgDep UnitId) {id : UnitId} (hne : id ≠ uid) :
    (st.pushDep uid dep).unit id = st.unit id :=
  update_of_ne hne _ st.unit

theorem deps_pushDep_self (dep : PkgDep UnitId) :
    ((st.pushDep uid dep).unit uid).deps = (st.unit uid).deps ++ [dep] :=
  congrArg PkgUnit.deps (update_self uid _ st.unit)

theorem kinds_pushDep (dep : PkgDep UnitId) (id : UnitId) :
    ((st.pushDep uid dep).unit id).kinds = (st.unit id).kinds := by
  by_cases heq : id = uid
  · subst heq
    have hself : (st.pushDep id dep).unit id =
        { st.unit id with deps := (st.unit id).deps ++ [dep] } := update_self id _ st.unit
    rw [hself]
  · rw [st.unit_pushDep_of_ne uid dep heq]

theorem unit_setMetaprogram_of_ne (world : UnitId) {id : UnitId} (hne : id ≠ uid) :
    (st.setMetaprogram uid world).unit id = st.unit id :=
  update_of_ne hne _ st.unit

theorem unit_setMetaprogram_self (world : UnitId) :
    (st.setMetaprogram uid world).unit uid =
      { st.unit uid with metaprogram := some world } :=
  update_self uid _ st.unit

end State

namespace Session

variable (D : Digest FingerprintInput) (s : Session)

def resolve : Graph := s.content.resolve

/-- `spn_session_root_pkg`. -/
def rootPkg : PkgId :=
  ((s.resolve.nodes.find? fun node => node.source = .root).map Node.id).getD ⟨[], ⟨0, 0, 0⟩, 0⟩

/-- `sp_ht_getp(s->resolve, id)`. -/
def node? (id : PkgId) : Option Node := s.resolve.nodes.find? fun node => node.id = id

def hasScripts (id : PkgId) : Bool := (s.packages id).any pkgHasScripts

/-- The kinds `drain` asks for in a build. -/
def want (build : ℕ) : UInt32 :=
  if build = s.metaprogram then kindBit .package ||| kindBit .build else kindBit .package

/-- The open calls of `spn_unit_fingerprint` are of different packages that have edges, and one
more, as long as no package depends on itself. -/
def depth : ℕ := s.resolve.nodes.length + 1

/-- `add_unit`; nothing when an assertion fails, and when `spn_unit_fingerprint` does not
return. -/
def addUnit (st : State) (build : ℕ) (pid : PkgId) (kinds : UInt32) : Option State :=
  if ⟨pid, build⟩ ∈ st.order then
    if kinds &&& ~~~(st.unit ⟨pid, build⟩).kinds = 0 then some st else none
  else (s.packages pid).bind fun _ =>
    (s.content.fingerprint D (s.builds build) s.depth (st.prints build) pid).map
      (st.insert ⟨pid, build⟩ kinds)

/-- What `drain` does with one edge of a unit. -/
def drainEdge (uid : UnitId) (st : State) (edge : ResolvedDep) : Option State :=
  if kindBit edge.kind &&& (st.unit uid).kinds = 0 then some st
  else (s.addUnit D st uid.build edge.id (s.want uid.build)).map fun st =>
    st.pushDep uid ⟨⟨edge.id, uid.build⟩, edge.kind, edge.isPrivate⟩

/-- What `drain` does with one unit. -/
def drainUnit (st : State) (uid : UnitId) : Option State :=
  (s.node? uid.pkg).bind fun node => node.edges.foldlM (s.drainEdge D uid) st

/-- `drain`: the list of what is pending grows while it is gone through. -/
def drain : ℕ → State → Option State
  | _, ⟨order, unit, prints, []⟩ => some ⟨order, unit, prints, []⟩
  | 0, ⟨_, _, _, _ :: _⟩ => none
  | fuel + 1, ⟨order, unit, prints, uid :: rest⟩ =>
    (s.drainUnit D ⟨order, unit, prints, rest⟩ uid).bind (drain fuel)

/-- No build has more units than there are packages. -/
def limit : ℕ := s.resolve.nodes.length * (s.plans.length + 1)

/-- The first loop: the root in each build of the plans. -/
def addRoots (st : State) : Option State :=
  s.plans.foldlM (fun st build => s.addUnit D st build s.rootPkg (kindBit .package ||| kindBit .test))
    st

/-- The units that own scripts, outside the metaprogram build. -/
def owners (st : State) : List UnitId :=
  st.order.filter fun uid => uid.build ≠ s.metaprogram && s.hasScripts uid.pkg

def addScriptDep (st : State) (edge : ResolvedDep) : Option State :=
  if edge.kind = .build then
    s.addUnit D st s.metaprogram edge.id (kindBit .package ||| kindBit .build)
  else some st

/-- The third loop: what the scripts depend on. -/
def addScriptDeps (st : State) (owners : List UnitId) : Option State :=
  owners.foldlM (fun st uid =>
    (s.node? uid.pkg).bind fun node => node.edges.foldlM (s.addScriptDep D) st) st

/-- The fourth loop: owners that have no unit in the metaprogram build. -/
def addHosts (st : State) (owners : List UnitId) : Option State :=
  owners.foldlM (fun st uid =>
    if ⟨uid.pkg, s.metaprogram⟩ ∈ st.order then some st
    else s.addUnit D st s.metaprogram uid.pkg (kindBit .build)) st

/-- The last loop: units with scripts are given the unit that runs them. -/
def link (st : State) : Option State :=
  st.order.foldlM (fun st uid =>
    if s.hasScripts uid.pkg then
      if ⟨uid.pkg, s.metaprogram⟩ ∈ st.order then
        some (st.setMetaprogram uid ⟨uid.pkg, s.metaprogram⟩)
      else none
    else some st) st

/-- `spn_units_add_packages`. -/
def addPackages : Option State := do
  let st ← s.addRoots D .empty
  let st ← s.drain D s.limit st
  let owners := s.owners st
  let st ← s.addScriptDeps D st owners
  let st ← s.drain D s.limit st
  let st ← s.addHosts D st owners
  let st ← s.drain D s.limit st
  s.link st

/-! ## What the loops keep -/

/-- The resolution contains the root and what every edge leads to, no package of it depends on
itself, and every one is loaded. -/
structure Complete : Prop where
  acyclic : Acyclic s.content.Below
  root : ∃ node ∈ s.resolve.nodes, node.source = .root
  closed : ∀ node ∈ s.resolve.nodes, ∀ edge ∈ node.edges, ∃ node' ∈ s.resolve.nodes,
    node'.id = edge.id
  loaded : ∀ node ∈ s.resolve.nodes, (s.packages node.id).isSome

/-- The package is resolved. -/
def Known (id : PkgId) : Prop := ∃ node ∈ s.resolve.nodes, node.id = id

/-- The edges of a package. -/
def edgesOf (id : PkgId) : List ResolvedDep := ((s.node? id).map Node.edges).getD []

/-- The dependencies that edges make, of a unit of these kinds. -/
def depsOf (build : ℕ) (kinds : UInt32) (edges : List ResolvedDep) : List (PkgDep UnitId) :=
  (edges.filter fun edge => kindBit edge.kind &&& kinds ≠ 0).map fun edge =>
    ⟨⟨edge.id, build⟩, edge.kind, edge.isPrivate⟩

/-- A unit leads to another. -/
def Leads (st : State) (a b : UnitId) : Prop :=
  a ∈ st.order ∧ ∃ dep ∈ (st.unit a).deps, dep.unit = b

variable {D s}

theorem Known.node {id : PkgId} (hs : s.Known id) : ∃ node, s.node? id = some node := by
  obtain ⟨node, hnode, hid⟩ := hs
  cases hfind : s.node? id with
  | none =>
    have hno := List.find?_eq_none.1 hfind node hnode
    exact absurd (decide_eq_true hid) hno
  | some found => exact ⟨found, rfl⟩

theorem Complete.known_root (hs : s.Complete) : s.Known s.rootPkg := by
  obtain ⟨node, hnode, hsource⟩ := hs.root
  rw [rootPkg]
  cases hfind : s.resolve.nodes.find? fun node => node.source = .root with
  | none =>
    have hno := List.find?_eq_none.1 hfind node hnode
    exact absurd (decide_eq_true hsource) hno
  | some found => exact ⟨found, List.mem_of_find?_eq_some hfind, rfl⟩

theorem Complete.known_edge (hs : s.Complete) {id : PkgId} {edge : ResolvedDep}
    (hedge : edge ∈ s.edgesOf id) : s.Known edge.id := by
  rw [edgesOf] at hedge
  cases hnode : s.node? id with
  | none =>
    rw [hnode] at hedge
    cases hedge
  | some node =>
    rw [hnode] at hedge
    exact hs.closed node (List.mem_of_find?_eq_some hnode) edge hedge

theorem Complete.loaded_of_known (hs : s.Complete) {id : PkgId} (hid : s.Known id) :
    ∃ loaded, s.packages id = some loaded := by
  obtain ⟨node, hnode, rfl⟩ := hid
  exact Option.isSome_iff_exists.1 (hs.loaded node hnode)

/-- What holds between the steps. The dependencies of a unit are complete unless it is pending or
among those that are gone through. -/
structure Inv (s : Session) (opened : List UnitId) (st : State) : Prop where
  nodup : st.order.Nodup
  known : ∀ id ∈ st.order, s.Known id.pkg ∧ (id.build ∈ s.plans ∨ id.build = s.metaprogram)
  pending_mem : ∀ id ∈ st.pending, id ∈ st.order
  pending_nodup : st.pending.Nodup
  fresh : ∀ id ∈ st.pending, (st.unit id).deps = []
  full : ∀ id ∈ st.order, id ∉ st.pending → id ∉ opened →
    (st.unit id).deps = depsOf id.build (st.unit id).kinds (s.edgesOf id.pkg)
  closed : ∀ id ∈ st.order, ∀ dep ∈ (st.unit id).deps, dep.unit ∈ st.order

/-- The units of the target builds are reached from the roots. -/
def Reached (s : Session) (st : State) : Prop :=
  ∀ id ∈ st.order, id.build ≠ s.metaprogram →
    ReflTransGen (Leads st) ⟨s.rootPkg, id.build⟩ id

/-- Units were added, in one build, with the kinds that were wanted; the units there were keep
theirs. -/
structure Grows (build : ℕ) (want : UInt32) (src : PkgId → Prop) (st st' : State) : Prop where
  news : ∃ news, st'.order = st.order ++ news ∧ st'.pending = st.pending ++ news ∧
    ∀ id ∈ news, id.build = build ∧ id ∉ st.order ∧ (st'.unit id).kinds = want ∧ src id.pkg
  kinds : ∀ id ∈ st.order, (st'.unit id).kinds = (st.unit id).kinds

section Grows

variable {build : ℕ} {want : UInt32} {src : PkgId → Prop} {st st' st'' : State}

theorem Grows.refl (st : State) : Grows build want src st st where
  news := ⟨[], by simp, by simp, fun id hid => by cases hid⟩
  kinds _ _ := rfl

theorem Grows.mem (h : Grows build want src st st') {id : UnitId} (hid : id ∈ st.order) :
    id ∈ st'.order := by
  obtain ⟨news, horder, -⟩ := h.news
  rw [horder]
  exact List.mem_append_left _ hid

theorem Grows.trans (h : Grows build want src st st') (h' : Grows build want src st' st'') :
    Grows build want src st st'' where
  news := by
    obtain ⟨news, horder, hpending, hnews⟩ := h.news
    obtain ⟨news', horder', hpending', hnews'⟩ := h'.news
    refine ⟨news ++ news', by rw [horder', horder, List.append_assoc],
      by rw [hpending', hpending, List.append_assoc], fun id hid => ?_⟩
    obtain hid | hid := List.mem_append.1 hid
    · obtain ⟨hbuild, hold, hkinds, hsrc⟩ := hnews id hid
      have hmem : id ∈ st'.order := horder ▸ List.mem_append_right _ hid
      exact ⟨hbuild, hold, (h'.kinds id hmem).trans hkinds, hsrc⟩
    · obtain ⟨hbuild, hold, hkinds, hsrc⟩ := hnews' id hid
      exact ⟨hbuild, fun hin => hold (h.mem hin), hkinds, hsrc⟩
  kinds id hid := (h'.kinds id (h.mem hid)).trans (h.kinds id hid)

/-- A unit there is now was there before, or has the kinds that were wanted. -/
theorem Grows.kinds_cases (h : Grows build want src st st') {id : UnitId} (hid : id ∈ st'.order) :
    (id ∈ st.order ∧ (st'.unit id).kinds = (st.unit id).kinds) ∨
      (id.build = build ∧ (st'.unit id).kinds = want ∧ src id.pkg) := by
  obtain ⟨news, horder, -, hnews⟩ := h.news
  rw [horder] at hid
  obtain hid | hid := List.mem_append.1 hid
  · exact .inl ⟨hid, h.kinds id hid⟩
  · obtain ⟨hbuild, -, hkinds, hsrc⟩ := hnews id hid
    exact .inr ⟨hbuild, hkinds, hsrc⟩

end Grows

/-! ## One unit -/

/-- The map with a unit for the id. -/
def ensure (st : State) (uid : UnitId) (kinds : UInt32) (print : ℕ × Table PkgId ℕ) : State :=
  if uid ∈ st.order then st else st.insert uid kinds print

theorem addUnit_eq (hs : s.Complete) {st : State} {build : ℕ} {pid : PkgId} {kinds : UInt32}
    (hpid : s.Known pid) (hwide : ⟨pid, build⟩ ∈ st.order →
      kinds &&& ~~~(st.unit ⟨pid, build⟩).kinds = 0) :
    ∃ print, s.addUnit D st build pid kinds = some (ensure st ⟨pid, build⟩ kinds print) := by
  unfold addUnit ensure
  split_ifs with hin hkinds
  · exact ⟨(0, ∅), rfl⟩
  · exact absurd (hwide hin) hkinds
  · obtain ⟨loaded, hloaded⟩ := hs.loaded_of_known hpid
    have hdepth : s.content.resolve.nodes.length < s.depth + ([] : List PkgId).length :=
      Nat.lt_succ_self _
    have habove : ∀ above ∈ ([] : List PkgId), Relation.TransGen s.content.Below above pid :=
      fun _ h => absurd h List.not_mem_nil
    obtain ⟨print, hprint⟩ := fingerprint_returns hs.acyclic List.nodup_nil (List.nil_subset _)
      habove hdepth (st.prints build)
    exact ⟨print, by rw [hloaded, Option.bind_some, hprint, Option.map_some]⟩

theorem mem_ensure (st : State) (uid : UnitId) (kinds : UInt32) (print : ℕ × Table PkgId ℕ) :
    uid ∈ (ensure st uid kinds print).order := by
  rw [ensure]
  split_ifs with hin
  · exact hin
  · exact List.mem_append_right _ (List.mem_singleton_self uid)

theorem unit_ensure {st : State} {uid id : UnitId} {kinds : UInt32} {print : ℕ × Table PkgId ℕ}
    (hid : id ∈ st.order) : (ensure st uid kinds print).unit id = st.unit id := by
  rw [ensure]
  split_ifs with hin
  · rfl
  · have hne : id ≠ uid := by
      rintro rfl
      exact hin hid
    exact update_of_ne hne _ _

theorem ensure_cases (st : State) (uid : UnitId) (kinds : UInt32) (print : ℕ × Table PkgId ℕ) :
    (uid ∈ st.order ∧ ensure st uid kinds print = st) ∨
      (uid ∉ st.order ∧ ensure st uid kinds print = st.insert uid kinds print) := by
  by_cases hin : uid ∈ st.order
  · exact .inl ⟨hin, if_pos hin⟩
  · exact .inr ⟨hin, if_neg hin⟩

theorem grows_ensure {src : PkgId → Prop} {st : State} {uid : UnitId} {kinds : UInt32}
    {print : ℕ × Table PkgId ℕ} (hsrc : src uid.pkg) :
    Grows uid.build kinds src st (ensure st uid kinds print) := by
  refine ⟨?_, fun id hid => by rw [unit_ensure hid]⟩
  obtain ⟨-, heq⟩ | ⟨hout, heq⟩ := ensure_cases st uid kinds print
  · rw [heq]
    exact (Grows.refl st).news
  · rw [heq]
    refine ⟨[uid], rfl, rfl, fun id hid => ?_⟩
    obtain rfl := List.mem_singleton.1 hid
    exact ⟨rfl, hout, congrArg PkgUnit.kinds (st.unit_insert_self id kinds print), hsrc⟩

/-- A new unit is pending, and nothing else changes. -/
theorem Inv.ensure {opened : List UnitId} {st : State} (h : Inv s opened st) {uid : UnitId}
    (kinds : UInt32) (print : ℕ × Table PkgId ℕ) (hknown : s.Known uid.pkg)
    (hbuild : uid.build ∈ s.plans ∨ uid.build = s.metaprogram) :
    Inv s opened (Session.ensure st uid kinds print) := by
  obtain ⟨-, heq⟩ | ⟨hout, heq⟩ := ensure_cases st uid kinds print
  · rw [heq]
    exact h
  · have hold : ∀ id ∈ st.order, (st.insert uid kinds print).unit id = st.unit id := fun id hid =>
      heq ▸ unit_ensure hid
    have hnew : (st.insert uid kinds print).unit uid = ⟨kinds, [], none, print.1⟩ :=
      st.unit_insert_self uid kinds print
    have hcases : ∀ id ∈ (st.insert uid kinds print).order, id ∈ st.order ∨ id = uid := fun id hid =>
      (List.mem_append.1 hid).imp_right List.mem_singleton.1
    rw [heq]
    exact {
      nodup := List.nodup_append.2 ⟨h.nodup, List.nodup_singleton uid, fun a ha b hb hab => by
        obtain rfl := List.mem_singleton.1 hb
        exact hout (hab ▸ ha)⟩
      known := fun id hid => by
        obtain hid | rfl := hcases id hid
        · exact h.known id hid
        · exact ⟨hknown, hbuild⟩
      pending_mem := fun id hid => by
        obtain hid | hid := List.mem_append.1 hid
        · exact List.mem_append_left _ (h.pending_mem id hid)
        · exact List.mem_append_right _ hid
      pending_nodup := List.nodup_append.2
        ⟨h.pending_nodup, List.nodup_singleton uid, fun a ha b hb hab => by
          obtain rfl := List.mem_singleton.1 hb
          exact hout (h.pending_mem _ (hab ▸ ha))⟩
      fresh := fun id hid => by
        obtain hid | hid := List.mem_append.1 hid
        · rw [hold id (h.pending_mem id hid)]
          exact h.fresh id hid
        · rw [List.mem_singleton.1 hid, hnew]
      full := fun id hid hpending hopen => by
        obtain hid | rfl := hcases id hid
        · rw [hold id hid]
          exact h.full id hid (fun hin => hpending (List.mem_append_left _ hin)) hopen
        · exact absurd (List.mem_append_right _ (List.mem_singleton_self id)) hpending
      closed := fun id hid dep hdep => by
        obtain hid | rfl := hcases id hid
        · rw [hold id hid] at hdep
          exact List.mem_append_left _ (h.closed id hid dep hdep)
        · rw [hnew] at hdep
          cases hdep }

/-- The unit that is gone through is given a dependency. -/
theorem Inv.pushDep {st : State} {uid : UnitId} (h : Inv s [uid] st) (hout : uid ∉ st.pending)
    {dep : PkgDep UnitId} (hdep : dep.unit ∈ st.order) : Inv s [uid] (st.pushDep uid dep) where
  nodup := h.nodup
  known := h.known
  pending_mem := h.pending_mem
  pending_nodup := h.pending_nodup
  fresh id hid := by
    have hne : id ≠ uid := fun heq => hout (heq ▸ hid)
    rw [st.unit_pushDep_of_ne uid dep hne]
    exact h.fresh id hid
  full id hid hpending hopen := by
    have hne : id ≠ uid := fun heq => hopen (List.mem_singleton.2 heq)
    rw [st.unit_pushDep_of_ne uid dep hne]
    exact h.full id hid hpending hopen
  closed id hid dep' hdep' := by
    by_cases heq : id = uid
    · subst heq
      rw [st.deps_pushDep_self id dep] at hdep'
      obtain hin | hin := List.mem_append.1 hdep'
      · exact h.closed id hid dep' hin
      · rw [List.mem_singleton.1 hin]
        exact hdep
    · rw [st.unit_pushDep_of_ne uid dep heq] at hdep'
      exact h.closed id hid dep' hdep'

/-! ## The way from the root -/

theorem Leads.mono {st st' : State} (horder : ∀ id ∈ st.order, id ∈ st'.order)
    (hdeps : ∀ id ∈ st.order, (st.unit id).deps ⊆ (st'.unit id).deps) {a b : UnitId}
    (h : Leads st a b) : Leads st' a b := by
  obtain ⟨ha, dep, hdep, hb⟩ := h
  exact ⟨horder a ha, dep, hdeps a ha hdep, hb⟩

theorem leads_ensure {st : State} {uid : UnitId} {kinds : UInt32} {print : ℕ × Table PkgId ℕ}
    {a b : UnitId} (h : Leads st a b) : Leads (ensure st uid kinds print) a b :=
  h.mono (fun _ hid => (@grows_ensure (fun _ => True) st uid kinds print trivial).mem hid)
    (fun id hid => by rw [unit_ensure hid]; exact List.Subset.refl _)

theorem leads_pushDep {st : State} {uid : UnitId} {dep : PkgDep UnitId} {a b : UnitId}
    (h : Leads st a b) : Leads (st.pushDep uid dep) a b := by
  refine @Leads.mono st (st.pushDep uid dep) (fun _ hid => hid) (fun id _ => ?_) a b h
  by_cases heq : id = uid
  · subst heq
    rw [st.deps_pushDep_self id dep]
    exact List.subset_append_left _ _
  · rw [st.unit_pushDep_of_ne uid dep heq]
    exact List.Subset.refl _

/-- A unit that is made for the root, or in the metaprogram build. -/
theorem Reached.ensure {st : State} (h : Reached s st) {uid : UnitId} (kinds : UInt32)
    (print : ℕ × Table PkgId ℕ)
    (hroot : uid.build ≠ s.metaprogram → uid.pkg = s.rootPkg) :
    Reached s (Session.ensure st uid kinds print) := by
  intro id hid hbuild
  obtain ⟨hold, -⟩ | ⟨hin, -, hpkg⟩ :=
    (@grows_ensure (· = uid.pkg) st uid kinds print rfl).kinds_cases hid
  · exact ReflTransGen.mono (fun _ _ => leads_ensure) _ _ (h id hold hbuild)
  · have heq : id = ⟨s.rootPkg, id.build⟩ :=
      UnitId.ext (hpkg.trans (hroot (hin ▸ hbuild))) rfl
    rw [← heq]

/-- A unit that is made for an edge of a unit there is. -/
theorem Reached.edge {st : State} (h : Reached s st) {uid : UnitId} (huid : uid ∈ st.order)
    {dep : PkgDep UnitId} (hbuild : dep.unit.build = uid.build) (kinds : UInt32)
    (print : ℕ × Table PkgId ℕ) :
    Reached s ((Session.ensure st dep.unit kinds print).pushDep uid dep) := by
  have hmono : ∀ {a b}, Leads st a b →
      Leads ((Session.ensure st dep.unit kinds print).pushDep uid dep) a b :=
    fun hleads => leads_pushDep (leads_ensure hleads)
  intro id hid hne
  obtain ⟨hold, -⟩ | ⟨hin, -, hpkg⟩ :=
    (@grows_ensure (· = dep.unit.pkg) st dep.unit kinds print rfl).kinds_cases hid
  · exact ReflTransGen.mono (fun _ _ => hmono) _ _ (h id hold hne)
  · have hto : id = dep.unit := UnitId.ext hpkg hin
    have hfrom := ReflTransGen.mono (fun _ _ => hmono) _ _ (h uid huid (hbuild ▸ hin ▸ hne))
    rw [hin, hbuild]
    refine hfrom.tail ⟨?_, dep, ?_, hto.symm⟩
    · exact (@grows_ensure (fun _ => True) st dep.unit kinds print trivial).mem huid
    · rw [State.deps_pushDep_self]
      exact List.mem_append_right _ (List.mem_singleton_self dep)

/-! ## Draining -/

theorem Grows.pushDep {build : ℕ} {want : UInt32} {src : PkgId → Prop} {st st' : State}
    (h : Grows build want src st st') (uid : UnitId) (dep : PkgDep UnitId) :
    Grows build want src st (st'.pushDep uid dep) where
  news := by
    obtain ⟨news, horder, hpending, hnews⟩ := h.news
    refine ⟨news, horder, hpending, fun id hid => ?_⟩
    rw [st'.kinds_pushDep uid dep id]
    exact hnews id hid
  kinds id hid := (st'.kinds_pushDep uid dep id).trans (h.kinds id hid)

theorem Grows.not_pending {build : ℕ} {want : UInt32} {src : PkgId → Prop} {st st' : State}
    (h : Grows build want src st st') {uid : UnitId} (huid : uid ∈ st.order)
    (hout : uid ∉ st.pending) : uid ∉ st'.pending := by
  obtain ⟨news, -, hpending, hnews⟩ := h.news
  rw [hpending, List.mem_append, not_or]
  exact ⟨hout, fun hin => (hnews uid hin).2.1 huid⟩

theorem Grows.weaken {build : ℕ} {want : UInt32} {src src' : PkgId → Prop} {st st' : State}
    (h : Grows build want src st st') (hsrc : ∀ p, src p → src' p) :
    Grows build want src' st st' where
  news := by
    obtain ⟨news, horder, hpending, hnews⟩ := h.news
    exact ⟨news, horder, hpending, fun id hid =>
      ⟨(hnews id hid).1, (hnews id hid).2.1, (hnews id hid).2.2.1, hsrc _ (hnews id hid).2.2.2⟩⟩
  kinds := h.kinds

/-- The unit an edge leads to is there with the kinds that are asked for, or is not there. -/
def Wide (s : Session) (st : State) (build : ℕ) (pkg : PkgId) : Prop :=
  ⟨pkg, build⟩ ∈ st.order → s.want build &&& ~~~(st.unit ⟨pkg, build⟩).kinds = 0

theorem Wide.grows {st st' : State} {build : ℕ} {pkg : PkgId} {src : PkgId → Prop}
    (h : Wide s st build pkg) (hg : Grows build (s.want build) src st st') :
    Wide s st' build pkg := by
  intro hin
  obtain ⟨hold, hkinds⟩ | ⟨-, hkinds, -⟩ := hg.kinds_cases hin
  · rw [hkinds]
    exact h hold
  · rw [hkinds]
    exact UInt32.and_not_self

/-- The edges a unit of these kinds follows lead to the package. -/
def Follows (kinds : UInt32) (edges : List ResolvedDep) (pkg : PkgId) : Prop :=
  ∃ edge ∈ edges, kindBit edge.kind &&& kinds ≠ 0 ∧ edge.id = pkg

theorem foldlM_drainEdge (hs : s.Complete) {uid : UnitId} (edges : List ResolvedDep)
    (hknown : ∀ edge ∈ edges, s.Known edge.id) {st : State} (h : Inv s [uid] st)
    (hreached : Reached s st) (huid : uid ∈ st.order) (hout : uid ∉ st.pending)
    (hwide : ∀ pkg, Follows (st.unit uid).kinds edges pkg → Wide s st uid.build pkg) :
    ∃ st', edges.foldlM (s.drainEdge D uid) st = some st' ∧ Inv s [uid] st' ∧ Reached s st' ∧
      (st'.unit uid).deps =
        (st.unit uid).deps ++ depsOf uid.build (st.unit uid).kinds edges ∧
      Grows uid.build (s.want uid.build) (Follows (st.unit uid).kinds edges) st st' := by
  induction edges generalizing st with
  | nil => exact ⟨st, rfl, h, hreached, by simp [depsOf], Grows.refl st⟩
  | cons edge edges ih =>
    have htail : ∀ edge ∈ edges, s.Known edge.id := fun e he =>
      hknown e (List.mem_cons_of_mem _ he)
    have hfollow : ∀ pkg, Follows (st.unit uid).kinds edges pkg →
        Follows (st.unit uid).kinds (edge :: edges) pkg := fun pkg hpkg => by
      obtain ⟨e, he, hused⟩ := hpkg
      exact ⟨e, List.mem_cons_of_mem _ he, hused⟩
    rw [List.foldlM_cons]
    by_cases hused : kindBit edge.kind &&& (st.unit uid).kinds = 0
    · have hstep : s.drainEdge D uid st edge = some st := if_pos hused
      obtain ⟨st', hst', hinv, hreach', hdeps, hgrows⟩ := ih htail h hreached huid hout
        fun pkg hpkg => hwide pkg (hfollow pkg hpkg)
      refine ⟨st', by rw [hstep, Option.bind_eq_bind, Option.bind_some, hst'], hinv, hreach', ?_,
        hgrows.weaken hfollow⟩
      rw [hdeps, depsOf, depsOf, List.filter_cons_of_neg (by simpa using hused)]
    · let dep : PkgDep UnitId := ⟨⟨edge.id, uid.build⟩, edge.kind, edge.isPrivate⟩
      have hpid : s.Known edge.id := hknown edge List.mem_cons_self
      have hself : Follows (st.unit uid).kinds (edge :: edges) edge.id :=
        ⟨edge, List.mem_cons_self, hused, rfl⟩
      obtain ⟨print, hadd⟩ := addUnit_eq hs hpid (hwide edge.id hself)
      let st₁ := (ensure st dep.unit (s.want uid.build) print).pushDep uid dep
      have hstep : s.drainEdge D uid st edge = some st₁ := by
        rw [drainEdge, if_neg hused, hadd]
        rfl
      have hensure : Grows uid.build (s.want uid.build)
          (Follows (st.unit uid).kinds (edge :: edges)) st
          (ensure st dep.unit (s.want uid.build) print) := @grows_ensure _ st dep.unit _ print hself
      have hgrows₁ := hensure.pushDep uid dep
      have hinv₁ : Inv s [uid] st₁ := by
        have hadd := @Inv.ensure s [uid] st h dep.unit (s.want uid.build) print hpid
          (h.known uid huid).2
        exact hadd.pushDep (hensure.not_pending huid hout) (mem_ensure st dep.unit _ print)
      have hkinds₁ := hgrows₁.kinds uid huid
      obtain ⟨st', hst', hinv, hreach', hdeps, hgrows⟩ := ih htail hinv₁
        (hreached.edge huid rfl _ print) (hgrows₁.mem huid) (hgrows₁.not_pending huid hout)
        (fun pkg hpkg => (hwide pkg (hfollow pkg (hkinds₁ ▸ hpkg))).grows hgrows₁)
      refine ⟨st', by rw [hstep, Option.bind_eq_bind, Option.bind_some, hst'], hinv, hreach',
        ?_, ?_⟩
      · rw [hdeps, hkinds₁, State.deps_pushDep_self, unit_ensure huid, List.append_assoc, depsOf,
          depsOf, List.filter_cons_of_pos (by simpa using hused)]
        rfl
      · rw [hkinds₁] at hgrows
        exact hgrows₁.trans (hgrows.weaken hfollow)

theorem Inv.done {st : State} {uid : UnitId} (h : Inv s [uid] st)
    (hdeps : (st.unit uid).deps = depsOf uid.build (st.unit uid).kinds (s.edgesOf uid.pkg)) :
    Inv s [] st where
  nodup := h.nodup
  known := h.known
  pending_mem := h.pending_mem
  pending_nodup := h.pending_nodup
  fresh := h.fresh
  full id hid hpending _ := by
    by_cases heq : id = uid
    · rw [heq]
      exact hdeps
    · exact h.full id hid hpending fun hin => heq (List.mem_singleton.1 hin)
  closed := h.closed

theorem Inv.pop {order rest : List UnitId} {unit : UnitId → PkgUnit}
    {prints : ℕ → Table PkgId ℕ} {uid : UnitId}
    (h : Inv s [] ⟨order, unit, prints, uid :: rest⟩) : Inv s [uid] ⟨order, unit, prints, rest⟩ where
  nodup := h.nodup
  known := h.known
  pending_mem id hid := h.pending_mem id (List.mem_cons_of_mem _ hid)
  pending_nodup := (List.nodup_cons.1 h.pending_nodup).2
  fresh id hid := h.fresh id (List.mem_cons_of_mem _ hid)
  full id hid hpending hopen := by
    refine h.full id hid (fun hin => ?_) List.not_mem_nil
    obtain heq | hrest := List.mem_cons.1 hin
    · exact hopen (List.mem_singleton.2 heq)
    · exact hpending hrest
  closed := h.closed

/-- One unit is gone through: its dependencies are complete. -/
theorem drainUnit_spec (hs : s.Complete) {order rest : List UnitId} {unit : UnitId → PkgUnit}
    {prints : ℕ → Table PkgId ℕ}
    {uid : UnitId} (h : Inv s [] ⟨order, unit, prints, uid :: rest⟩)
    (hreached : Reached s ⟨order, unit, prints, uid :: rest⟩)
    (hwide : ∀ pkg, Follows (unit uid).kinds (s.edgesOf uid.pkg) pkg →
      Wide s ⟨order, unit, prints, rest⟩ uid.build pkg) :
    ∃ st', s.drainUnit D ⟨order, unit, prints, rest⟩ uid = some st' ∧ Inv s [] st' ∧ Reached s st' ∧
      Grows uid.build (s.want uid.build) (Follows (unit uid).kinds (s.edgesOf uid.pkg))
        ⟨order, unit, prints, rest⟩ st' := by
  have huid : uid ∈ order := h.pending_mem uid List.mem_cons_self
  obtain ⟨node, hnode⟩ := (h.known uid huid).1.node
  have hedges : s.edgesOf uid.pkg = node.edges := by
    rw [edgesOf, hnode]
    rfl
  rw [hedges] at hwide ⊢
  obtain ⟨st', hst', hinv, hreach', hdeps, hgrows⟩ := foldlM_drainEdge hs node.edges
    (fun edge hedge => hs.known_edge (hedges ▸ hedge)) h.pop hreached huid
    (List.nodup_cons.1 h.pending_nodup).1 hwide
  have hnil : (unit uid).deps = [] := h.fresh uid List.mem_cons_self
  refine ⟨st', by rw [drainUnit, hnode, Option.bind_some, hst'], hinv.done ?_, hreach', hgrows⟩
  rw [hdeps, hgrows.kinds uid huid, hedges]
  change (unit uid).deps ++ _ = _
  rw [hnil, List.nil_append]

/-- The units there are fewer than the packages in all builds. -/
theorem Inv.order_le {opened : List UnitId} {st : State} (h : Inv s opened st) :
    st.order.length ≤ s.limit := by
  let all := s.resolve.nodes.flatMap fun node =>
    (s.metaprogram :: s.plans).map fun build => UnitId.mk node.id build
  have hsub : st.order ⊆ all := fun id hid => by
    obtain ⟨⟨node, hnode, hpkg⟩, hbuild⟩ := h.known id hid
    refine List.mem_flatMap.2 ⟨node, hnode, List.mem_map.2 ⟨id.build, ?_, UnitId.ext hpkg rfl⟩⟩
    obtain hplan | hmeta := hbuild
    · exact List.mem_cons_of_mem _ hplan
    · rw [hmeta]
      exact List.mem_cons_self
  have hle := (List.subperm_of_subset h.nodup hsub).length_le
  have hall : all.length = s.limit := by
    rw [limit, List.length_flatMap]
    simp
  omega

theorem Inv.pending_le {opened : List UnitId} {st : State} (h : Inv s opened st) :
    st.pending.length ≤ st.order.length :=
  (List.subperm_of_subset h.pending_nodup h.pending_mem).length_le

/-- Draining ends, and its assertions hold, while some invariant lets every pending unit ask for
what it follows. -/
theorem drain_ends (hs : s.Complete) (Ready : State → Prop)
    (hwide : ∀ order unit prints uid rest, Inv s [] ⟨order, unit, prints, uid :: rest⟩ →
      Ready ⟨order, unit, prints, uid :: rest⟩ → ∀ pkg, Follows (unit uid).kinds (s.edgesOf uid.pkg) pkg →
        Wide s ⟨order, unit, prints, rest⟩ uid.build pkg)
    (hkeep : ∀ order unit prints uid rest st', Inv s [] ⟨order, unit, prints, uid :: rest⟩ →
      Ready ⟨order, unit, prints, uid :: rest⟩ →
      Grows uid.build (s.want uid.build) (Follows (unit uid).kinds (s.edgesOf uid.pkg))
        ⟨order, unit, prints, rest⟩ st' → Ready st')
    (fuel : ℕ) {st : State} (h : Inv s [] st) (hreached : Reached s st) (hready : Ready st)
    (hfuel : s.limit ≤ fuel + (st.order.length - st.pending.length)) :
    ∃ st', s.drain D fuel st = some st' ∧ Inv s [] st' ∧ Reached s st' ∧ Ready st' ∧
      st'.pending = [] ∧ (∀ id ∈ st.order, id ∈ st'.order ∧
        (st'.unit id).kinds = (st.unit id).kinds) := by
  induction fuel generalizing st with
  | zero =>
    obtain ⟨order, unit, prints, pending⟩ := st
    cases pending with
    | nil => exact ⟨_, rfl, h, hreached, hready, rfl, fun id hid => ⟨hid, rfl⟩⟩
    | cons uid rest =>
      have hle := h.order_le
      have hpending := h.pending_le
      simp only [List.length_cons] at hfuel hpending hle
      omega
  | succ fuel ih =>
    obtain ⟨order, unit, prints, pending⟩ := st
    cases pending with
    | nil => exact ⟨_, rfl, h, hreached, hready, rfl, fun id hid => ⟨hid, rfl⟩⟩
    | cons uid rest =>
      obtain ⟨st₁, hst₁, hinv₁, hreached₁, hgrows⟩ :=
        drainUnit_spec hs h hreached (hwide order unit prints uid rest h hready)
      have hfuel₁ : s.limit ≤ fuel + (st₁.order.length - st₁.pending.length) := by
        obtain ⟨news, horder, hpending, -⟩ := hgrows.news
        have hle := h.pending_le
        rw [horder, hpending]
        simp only [List.length_cons, List.length_append] at hfuel hle ⊢
        omega
      obtain ⟨st', hst', hinv, hreached', hready', hdone, hold⟩ := ih hinv₁ hreached₁
        (hkeep order unit prints uid rest st₁ h hready hgrows) hfuel₁
      refine ⟨st', ?_, hinv, hreached', hready', hdone, fun id hid => ?_⟩
      · rw [drain, hst₁, Option.bind_some, hst']
      · obtain ⟨hmem, hkinds⟩ := hold id (hgrows.mem hid)
        exact ⟨hmem, hkinds.trans (hgrows.kinds id hid)⟩

/-! ## The kinds of the units -/

/-- The kinds before the hosts of scripts are added. -/
def Members (s : Session) (st : State) : Prop :=
  ∀ id ∈ st.order,
    (id.build = s.metaprogram ∧ (st.unit id).kinds = kindBit .package ||| kindBit .build) ∨
      (id.build ≠ s.metaprogram ∧ ((st.unit id).kinds = kindBit .package ∨
        (st.unit id).kinds = kindBit .package ||| kindBit .test))

theorem Members.wide {st : State} (h : Members s st) (build : ℕ) (pkg : PkgId) :
    Wide s st build pkg := by
  intro hin
  obtain ⟨hbuild, hkinds⟩ | ⟨hbuild, hkinds | hkinds⟩ := h _ hin
  · rw [hkinds, want, if_pos hbuild]
    rfl
  · rw [hkinds, want, if_neg hbuild]
    rfl
  · rw [hkinds, want, if_neg hbuild]
    rfl

theorem Members.grows {st st' : State} (h : Members s st) {build : ℕ} {src : PkgId → Prop}
    (hg : Grows build (s.want build) src st st') : Members s st' := by
  intro id hid
  obtain ⟨hold, hkinds⟩ | ⟨hbuild, hkinds, -⟩ := hg.kinds_cases hid
  · rw [hkinds]
    exact h id hold
  · rw [hkinds, ← hbuild, want]
    by_cases hmeta : id.build = s.metaprogram
    · rw [if_pos hmeta]
      exact .inl ⟨hmeta, rfl⟩
    · rw [if_neg hmeta]
      exact .inr ⟨hmeta, .inl rfl⟩

/-- Since the first drain units are added in the metaprogram build only. -/
def Only (s : Session) (base st : State) : Prop :=
  (∀ id ∈ st.pending, id.build = s.metaprogram) ∧
    ∀ id ∈ st.order, id.build ≠ s.metaprogram → id ∈ base.order

theorem Only.grows {base st st' : State} (h : Only s base st) {want : UInt32} {src : PkgId → Prop}
    (hg : Grows s.metaprogram want src st st') : Only s base st' := by
  obtain ⟨news, horder, hpending, hnews⟩ := hg.news
  refine ⟨fun id hid => ?_, fun id hid hne => ?_⟩
  · rw [hpending] at hid
    obtain hid | hid := List.mem_append.1 hid
    · exact h.1 id hid
    · exact (hnews id hid).1
  · rw [horder] at hid
    obtain hid | hid := List.mem_append.1 hid
    · exact h.2 id hid hne
    · exact absurd (hnews id hid).1 hne

theorem Only.pop {base : State} {order rest : List UnitId} {unit : UnitId → PkgUnit}
    {prints : ℕ → Table PkgId ℕ} {uid : UnitId}
    (h : Only s base ⟨order, unit, prints, uid :: rest⟩) : Only s base ⟨order, unit, prints, rest⟩ :=
  ⟨fun id hid => h.1 id (List.mem_cons_of_mem _ hid), h.2⟩

/-- Draining before the hosts are added. -/
theorem drain_members (hs : s.Complete) (base : State) {st : State} (h : Inv s [] st)
    (hreached : Reached s st) (hmembers : Members s st) :
    ∃ st', s.drain D s.limit st = some st' ∧ Inv s [] st' ∧ Reached s st' ∧
      (Members s st' ∧ (Only s base st → Only s base st')) ∧ st'.pending = [] ∧
      (∀ id ∈ st.order, id ∈ st'.order ∧ (st'.unit id).kinds = (st.unit id).kinds) := by
  refine drain_ends hs (fun x => Members s x ∧ (Only s base st → Only s base x)) ?_ ?_ s.limit h
    hreached ⟨hmembers, fun h => h⟩ (Nat.le_add_right _ _)
  · intro order unit prints uid rest _ hready pkg _
    have hat : Members s ⟨order, unit, prints, rest⟩ := hready.1
    exact hat.wide uid.build pkg
  · intro order unit prints uid rest st' _ hready hgrows
    have hat : Members s ⟨order, unit, prints, rest⟩ := hready.1
    refine ⟨hat.grows hgrows, fun honly => ?_⟩
    have hbuild := (hready.2 honly).1 uid List.mem_cons_self
    rw [hbuild] at hgrows
    exact (hready.2 honly).pop.grows hgrows

/-- A unit that runs scripts only: what it depends on is there with all the kinds it asks for. -/
def Host (s : Session) (st : State) (id : UnitId) : Prop :=
  id.build = s.metaprogram ∧ (st.unit id).kinds = kindBit .build ∧
    ∀ edge ∈ s.edgesOf id.pkg, edge.kind = .build → ⟨edge.id, s.metaprogram⟩ ∈ st.order ∧
      (st.unit ⟨edge.id, s.metaprogram⟩).kinds = kindBit .package ||| kindBit .build

theorem build_of_follows {kinds : UInt32} (hkinds : kinds = kindBit .build)
    {edges : List ResolvedDep} {pkg : PkgId} (h : Follows kinds edges pkg) :
    ∃ edge ∈ edges, edge.kind = .build ∧ edge.id = pkg := by
  obtain ⟨edge, hedge, hused, hid⟩ := h
  refine ⟨edge, hedge, ?_, hid⟩
  rw [hkinds] at hused
  cases hkind : edge.kind with
  | build => rfl
  | package =>
    rw [hkind] at hused
    exact absurd rfl hused
  | test =>
    rw [hkind] at hused
    exact absurd rfl hused

theorem Host.wide {st : State} {id : UnitId} (h : Host s st id) {pkg : PkgId}
    (hfollow : Follows (st.unit id).kinds (s.edgesOf id.pkg) pkg) : Wide s st id.build pkg := by
  intro _
  obtain ⟨edge, hedge, hkind, rfl⟩ := build_of_follows h.2.1 hfollow
  rw [h.1, (h.2.2 edge hedge hkind).2, want, if_pos rfl]
  rfl

/-! ## The phases -/

/-- The units there stay, with their kinds. -/
def Keeps (st st' : State) : Prop :=
  ∀ id ∈ st.order, id ∈ st'.order ∧ (st'.unit id).kinds = (st.unit id).kinds

theorem Keeps.trans {st st' st'' : State} (h : Keeps st st') (h' : Keeps st' st'') :
    Keeps st st'' := fun id hid =>
  ⟨(h' id (h id hid).1).1, ((h' id (h id hid).1).2).trans (h id hid).2⟩

theorem Grows.keeps {build : ℕ} {want : UInt32} {src : PkgId → Prop} {st st' : State}
    (h : Grows build want src st st') : Keeps st st' := fun id hid => ⟨h.mem hid, h.kinds id hid⟩

/-- A loop whose steps keep an invariant, and what each step has brought about. -/
theorem foldlM_keeps {α : Type} {f : State → α → Option State} {I : State → Prop}
    {Done : α → State → Prop} (hdone : ∀ a st st', Keeps st st' → Done a st → Done a st')
    {l : List α}
    (hstep : ∀ a ∈ l, ∀ st, I st → ∃ st', f st a = some st' ∧ I st' ∧ Done a st' ∧ Keeps st st')
    {st : State} (h : I st) :
    ∃ st', l.foldlM f st = some st' ∧ I st' ∧ (∀ a ∈ l, Done a st') ∧ Keeps st st' := by
  induction l generalizing st with
  | nil => exact ⟨st, rfl, h, fun a ha => absurd ha List.not_mem_nil, fun id hid => ⟨hid, rfl⟩⟩
  | cons a l ih =>
    obtain ⟨st₁, hst₁, h₁, ha, hkeeps₁⟩ := hstep a List.mem_cons_self st h
    obtain ⟨st', hst', h', hl, hkeeps⟩ := ih (fun b hb => hstep b (List.mem_cons_of_mem _ hb)) h₁
    refine ⟨st', by rw [List.foldlM_cons, hst₁, Option.bind_eq_bind, Option.bind_some, hst'], h',
      fun b hb => ?_, hkeeps₁.trans hkeeps⟩
    obtain rfl | hb := List.mem_cons.1 hb
    · exact hdone b st₁ st' hkeeps ha
    · exact hl b hb

/-- The roots of the target builds are members of them. -/
def Roots (s : Session) (st : State) : Prop :=
  ∀ id ∈ st.order,
    id.build ≠ s.metaprogram ∧ (st.unit id).kinds = kindBit .package ||| kindBit .test

theorem inv_empty (s : Session) : Inv s [] .empty where
  nodup := List.nodup_nil
  known _ hid := absurd hid List.not_mem_nil
  pending_mem _ hid := absurd hid List.not_mem_nil
  pending_nodup := List.nodup_nil
  fresh _ hid := absurd hid List.not_mem_nil
  full _ hid := absurd hid List.not_mem_nil
  closed _ hid := absurd hid List.not_mem_nil

theorem addRoots_spec (hs : s.Complete) (hplans : s.metaprogram ∉ s.plans) :
    ∃ st, s.addRoots D .empty = some st ∧ Inv s [] st ∧ Reached s st ∧ Members s st ∧
      ∀ build ∈ s.plans, ⟨s.rootPkg, build⟩ ∈ st.order := by
  have hno : ∀ id : UnitId, id ∉ State.empty.order := fun _ => List.not_mem_nil
  obtain ⟨st, hst, ⟨hinv, hreached, hroots⟩, hin, -⟩ := @foldlM_keeps ℕ
    (fun st build => s.addUnit D st build s.rootPkg (kindBit .package ||| kindBit .test))
    (fun st => Inv s [] st ∧ Reached s st ∧ Roots s st)
    (fun build st => ⟨s.rootPkg, build⟩ ∈ st.order)
    (fun build st st' hkeeps hin => (hkeeps _ hin).1)
    s.plans
    (fun build hbuild st hI => by
      obtain ⟨hinv, hreached, hroots⟩ := hI
      have hne : build ≠ s.metaprogram := fun heq => hplans (heq ▸ hbuild)
      have hwide : ⟨s.rootPkg, build⟩ ∈ st.order → (kindBit .package ||| kindBit .test) &&&
          ~~~(st.unit ⟨s.rootPkg, build⟩).kinds = 0 := fun hin => by
        rw [(hroots _ hin).2]
        rfl
      obtain ⟨print, hadd⟩ := addUnit_eq hs hs.known_root hwide
      have hgrows := @grows_ensure (fun _ => True) st ⟨s.rootPkg, build⟩
        (kindBit .package ||| kindBit .test) print trivial
      refine ⟨_, hadd, ⟨?_, ?_, fun id hid => ?_⟩, mem_ensure st _ _ print, hgrows.keeps⟩
      · exact @Inv.ensure s [] st hinv ⟨s.rootPkg, build⟩ _ print hs.known_root (.inl hbuild)
      · exact hreached.ensure _ print fun _ => rfl
      · obtain ⟨hold, hkinds⟩ | ⟨hat, hkinds, -⟩ := hgrows.kinds_cases hid
        · rw [hkinds]
          exact hroots id hold
        · exact ⟨hat ▸ hne, hkinds⟩)
    .empty ⟨inv_empty s, fun id hid => absurd hid (hno id), fun id hid => absurd hid (hno id)⟩
  exact ⟨st, hst, hinv, hreached,
    fun id hid => .inr ⟨(hroots id hid).1, .inr (hroots id hid).2⟩, hin⟩

/-- What the scripts of a package depend on is in the metaprogram build. -/
def Served (s : Session) (id : PkgId) (st : State) : Prop :=
  ∀ edge ∈ s.edgesOf id, edge.kind = .build → ⟨edge.id, s.metaprogram⟩ ∈ st.order

theorem addScriptDeps_spec (hs : s.Complete) {owners : List UnitId}
    (howners : ∀ id ∈ owners, s.Known id.pkg) {base st : State} (h : Inv s [] st)
    (hreached : Reached s st) (hmembers : Members s st) (honly : Only s base st) :
    ∃ st', s.addScriptDeps D st owners = some st' ∧ Inv s [] st' ∧ Reached s st' ∧ Members s st' ∧
      Only s base st' ∧ (∀ id ∈ owners, Served s id.pkg st') ∧ Keeps st st' := by
  have hwant : s.want s.metaprogram = kindBit .package ||| kindBit .build := if_pos rfl
  obtain ⟨st', hst', ⟨hinv, hreach', hmembers', honly'⟩, hserved, hkeeps⟩ := @foldlM_keeps UnitId
    (fun st uid => (s.node? uid.pkg).bind fun node => node.edges.foldlM (s.addScriptDep D) st)
    (fun st => Inv s [] st ∧ Reached s st ∧ Members s st ∧ Only s base st)
    (fun id st => Served s id.pkg st)
    (fun id st st' hkeeps hserved edge hedge hkind => (hkeeps _ (hserved edge hedge hkind)).1)
    owners
    (fun uid huid st hI => by
      obtain ⟨node, hnode⟩ := (howners uid huid).node
      have hedges : s.edgesOf uid.pkg = node.edges := by
        rw [edgesOf, hnode]
        rfl
      obtain ⟨st', hst', hI', hin, hkeeps⟩ := @foldlM_keeps ResolvedDep (s.addScriptDep D)
        (fun st => Inv s [] st ∧ Reached s st ∧ Members s st ∧ Only s base st)
        (fun edge st => edge.kind = .build → ⟨edge.id, s.metaprogram⟩ ∈ st.order)
        (fun edge st st' hkeeps hin hkind => (hkeeps _ (hin hkind)).1) node.edges
        (fun edge hedge st hI => by
          obtain ⟨hinv, hreached, hmembers, honly⟩ := hI
          by_cases hkind : edge.kind = .build
          · have hpid := hs.known_edge (hedges ▸ hedge : edge ∈ s.edgesOf uid.pkg)
            obtain ⟨print, hadd⟩ := addUnit_eq hs hpid (hmembers.wide s.metaprogram edge.id)
            have hgrows := @grows_ensure (fun _ => True) st ⟨edge.id, s.metaprogram⟩
              (s.want s.metaprogram) print trivial
            refine ⟨ensure st ⟨edge.id, s.metaprogram⟩ (s.want s.metaprogram) print, ?_,
              ⟨?_, ?_, ?_, honly.grows hgrows⟩, fun _ => mem_ensure st _ _ print, hgrows.keeps⟩
            · rw [addScriptDep, if_pos hkind, ← hwant]
              exact hadd
            · exact @Inv.ensure s [] st hinv ⟨edge.id, s.metaprogram⟩ _ print hpid (.inr rfl)
            · exact hreached.ensure _ print fun hne => absurd rfl hne
            · exact hmembers.grows hgrows
          · exact ⟨st, if_neg hkind, ⟨hinv, hreached, hmembers, honly⟩, fun hb => absurd hb hkind,
              fun id hid => ⟨hid, rfl⟩⟩)
        st hI
      refine ⟨st', by rw [hnode, Option.bind_some, hst'], hI', ?_, hkeeps⟩
      rw [Served, hedges]
      exact hin)
    st ⟨h, hreached, hmembers, honly⟩
  exact ⟨st', hst', hinv, hreach', hmembers', honly', hserved, hkeeps⟩

theorem Host.keeps {st st' : State} {id : UnitId} (h : Host s st id) (hid : id ∈ st.order)
    (hkeeps : Keeps st st') : Host s st' id := by
  obtain ⟨hbuild, hkinds, hserved⟩ := h
  refine ⟨hbuild, (hkeeps id hid).2.trans hkinds, fun edge hedge hkind => ?_⟩
  obtain ⟨hin, htarget⟩ := hserved edge hedge hkind
  exact ⟨(hkeeps _ hin).1, (hkeeps _ hin).2.trans htarget⟩

/-- Only hosts are pending, and the metaprogram build has members and hosts. -/
def Hosted (s : Session) (st : State) : Prop :=
  (∀ id ∈ st.pending, Host s st id) ∧
    ∀ id ∈ st.order, id.build = s.metaprogram →
      (st.unit id).kinds = kindBit .package ||| kindBit .build ∨ (st.unit id).kinds = kindBit .build

theorem Hosted.ensure {st : State} (h : Hosted s st) (hinv : Inv s [] st) {pkg : PkgId}
    (print : ℕ × Table PkgId ℕ)
    (hserved : ∀ edge ∈ s.edgesOf pkg, edge.kind = .build → ⟨edge.id, s.metaprogram⟩ ∈ st.order ∧
      (st.unit ⟨edge.id, s.metaprogram⟩).kinds = kindBit .package ||| kindBit .build) :
    Hosted s (Session.ensure st ⟨pkg, s.metaprogram⟩ (kindBit .build) print) := by
  have hgrows := @grows_ensure (fun _ => True) st ⟨pkg, s.metaprogram⟩ (kindBit .build) print
    trivial
  obtain ⟨-, heq⟩ | ⟨hout, heq⟩ := ensure_cases st ⟨pkg, s.metaprogram⟩ (kindBit .build) print
  · rw [heq]
    exact h
  · rw [heq] at hgrows ⊢
    refine ⟨fun id hid => ?_, fun id hid hbuild => ?_⟩
    · obtain hid | hid := List.mem_append.1 hid
      · exact (h.1 id hid).keeps (hinv.pending_mem id hid) hgrows.keeps
      · obtain rfl := List.mem_singleton.1 hid
        refine ⟨rfl, congrArg PkgUnit.kinds (st.unit_insert_self _ _ print), fun edge hedge hkind => ?_⟩
        obtain ⟨hin, hkinds⟩ := hserved edge hedge hkind
        exact ⟨hgrows.mem hin, (hgrows.kinds _ hin).trans hkinds⟩
    · obtain ⟨hold, hkinds⟩ | ⟨-, hkinds, -⟩ := hgrows.kinds_cases hid
      · rw [hkinds]
        exact h.2 id hold hbuild
      · exact .inr hkinds

theorem addHosts_spec (hs : s.Complete) {owners : List UnitId}
    (howners : ∀ id ∈ owners, s.Known id.pkg) {base st₀ : State} (h : Inv s [] st₀)
    (hreached : Reached s st₀) (hmembers : Members s st₀) (honly : Only s base st₀)
    (hdone : st₀.pending = []) (hserved : ∀ id ∈ owners, Served s id.pkg st₀) :
    ∃ st', s.addHosts D st₀ owners = some st' ∧ Inv s [] st' ∧ Reached s st' ∧ Hosted s st' ∧
      Only s base st' ∧ (∀ id ∈ owners, ⟨id.pkg, s.metaprogram⟩ ∈ st'.order) ∧ Keeps st₀ st' := by
  have hhosted : Hosted s st₀ := by
    refine ⟨fun id hid => absurd hid (hdone ▸ List.not_mem_nil), fun id hid hbuild => ?_⟩
    obtain ⟨-, hkinds⟩ | ⟨hne, -⟩ := hmembers id hid
    · exact .inl hkinds
    · exact absurd hbuild hne
  obtain ⟨st', hst', ⟨hinv, hreach', hhosted', honly', -⟩, hin, hkeeps⟩ := @foldlM_keeps UnitId
    (fun st uid => if ⟨uid.pkg, s.metaprogram⟩ ∈ st.order then some st
      else s.addUnit D st s.metaprogram uid.pkg (kindBit .build))
    (fun st => Inv s [] st ∧ Reached s st ∧ Hosted s st ∧ Only s base st ∧ Keeps st₀ st)
    (fun id st => ⟨id.pkg, s.metaprogram⟩ ∈ st.order)
    (fun id st st' hkeeps hin => (hkeeps _ hin).1) owners
    (fun uid huid st hI => by
      obtain ⟨hinv, hreached, hhosted, honly, hkeeps⟩ := hI
      by_cases hin : (⟨uid.pkg, s.metaprogram⟩ : UnitId) ∈ st.order
      · exact ⟨st, if_pos hin, ⟨hinv, hreached, hhosted, honly, hkeeps⟩, hin,
          fun id hid => ⟨hid, rfl⟩⟩
      · obtain ⟨print, hadd⟩ := @addUnit_eq D s hs st s.metaprogram uid.pkg (kindBit .build)
          (howners uid huid) fun hin' => absurd hin' hin
        have hgrows := @grows_ensure (fun _ => True) st ⟨uid.pkg, s.metaprogram⟩
          (kindBit .build) print trivial
        refine ⟨Session.ensure st ⟨uid.pkg, s.metaprogram⟩ (kindBit .build) print, ?_,
          ⟨?_, ?_, hhosted.ensure hinv print ?_, honly.grows hgrows, hkeeps.trans hgrows.keeps⟩,
          mem_ensure st _ _ print, hgrows.keeps⟩
        · rw [if_neg hin]
          exact hadd
        · exact @Inv.ensure s [] st hinv ⟨uid.pkg, s.metaprogram⟩ _ print (howners uid huid)
            (.inr rfl)
        · exact hreached.ensure _ print fun hne => absurd rfl hne
        · intro edge hedge hkind
          have htarget := hserved uid huid edge hedge hkind
          refine ⟨(hkeeps _ htarget).1, (hkeeps _ htarget).2.trans ?_⟩
          obtain ⟨-, hkinds⟩ | ⟨hne, -⟩ := hmembers _ htarget
          · exact hkinds
          · exact absurd rfl hne)
    st₀ ⟨h, hreached, hhosted, honly, fun id hid => ⟨hid, rfl⟩⟩
  exact ⟨st', hst', hinv, hreach', hhosted', honly', hin, hkeeps⟩

/-- Draining the hosts adds no unit. -/
theorem drain_hosts (hs : s.Complete) {base st : State} (h : Inv s [] st)
    (hreached : Reached s st) (hhosted : Hosted s st) (honly : Only s base st) :
    ∃ st', s.drain D s.limit st = some st' ∧ Inv s [] st' ∧ Reached s st' ∧
      (Hosted s st' ∧ Only s base st') ∧ st'.pending = [] ∧ Keeps st st' := by
  refine drain_ends hs (fun x => Hosted s x ∧ Only s base x) ?_ ?_ s.limit h hreached
    ⟨hhosted, honly⟩ (Nat.le_add_right _ _)
  · intro order unit prints uid rest _ hboth pkg hfollow
    have hhost : Host s ⟨order, unit, prints, rest⟩ uid := hboth.1.1 uid List.mem_cons_self
    exact hhost.wide hfollow
  · intro order unit prints uid rest st' hinv hboth hgrows
    obtain ⟨hready, honly⟩ := hboth
    have hhost := hready.1 uid List.mem_cons_self
    refine ⟨?_, honly.pop.grows (hhost.1 ▸ hgrows)⟩
    refine ⟨fun id hid => ?_, fun id hid hbuild => ?_⟩
    · obtain ⟨news, -, hpending, hnews⟩ := hgrows.news
      rw [hpending] at hid
      obtain hid | hid := List.mem_append.1 hid
      · have hin : id ∈ order := hinv.pending_mem id (List.mem_cons_of_mem _ hid)
        have hat : Host s ⟨order, unit, prints, rest⟩ id := hready.1 id (List.mem_cons_of_mem _ hid)
        exact hat.keeps hin hgrows.keeps
      · -- what a host depends on is there already
        obtain ⟨hbuild, hnew, -, hfollow⟩ := hnews id hid
        obtain ⟨edge, hedge, hkind, hto⟩ := build_of_follows hhost.2.1 hfollow
        have hin := (hhost.2.2 edge hedge hkind).1
        rw [hto, ← hhost.1, ← hbuild] at hin
        exact absurd hin hnew
    · obtain ⟨hold, hkinds⟩ | ⟨-, hkinds, -⟩ := hgrows.kinds_cases hid
      · rw [hkinds]
        exact hready.2 id hold hbuild
      · rw [hkinds, hhost.1, want, if_pos rfl]
        exact .inl rfl

/-- The last loop only sets the units that run scripts. -/
theorem foldlM_link {order : List UnitId} (l : List UnitId)
    (hin : ∀ id ∈ l, s.hasScripts id.pkg → ⟨id.pkg, s.metaprogram⟩ ∈ order) {st : State}
    (hst : st.order = order) :
    ∃ st', l.foldlM (fun st uid =>
        if s.hasScripts uid.pkg then
          if ⟨uid.pkg, s.metaprogram⟩ ∈ st.order then
            some (st.setMetaprogram uid ⟨uid.pkg, s.metaprogram⟩)
          else none
        else some st) st = some st' ∧ st'.order = order ∧
      (∀ id, (st'.unit id).kinds = (st.unit id).kinds ∧ (st'.unit id).deps = (st.unit id).deps) ∧
      ∀ id, id ∈ l ∧ s.hasScripts id.pkg ∨
          (st.unit id).metaprogram = some ⟨id.pkg, s.metaprogram⟩ →
        (st'.unit id).metaprogram = some ⟨id.pkg, s.metaprogram⟩ := by
  induction l generalizing st with
  | nil =>
    refine ⟨st, rfl, hst, fun _ => ⟨rfl, rfl⟩, fun id hid => ?_⟩
    exact hid.resolve_left fun h => absurd h.1 List.not_mem_nil
  | cons uid l ih =>
    have htail := fun id hid => hin id (List.mem_cons_of_mem uid hid)
    rw [List.foldlM_cons]
    by_cases hscripts : s.hasScripts uid.pkg = true
    · have hworld : ⟨uid.pkg, s.metaprogram⟩ ∈ st.order :=
        hst ▸ hin uid List.mem_cons_self hscripts
      obtain ⟨st', hst', horder, hsame, hset⟩ :=
        @ih htail (st.setMetaprogram uid ⟨uid.pkg, s.metaprogram⟩) hst
      rw [if_pos hscripts, if_pos hworld, Option.bind_eq_bind, Option.bind_some]
      refine ⟨st', hst', horder, fun id => ?_, fun id hid => hset id ?_⟩
      · by_cases heq : id = uid
        · subst heq
          rw [(hsame id).1, (hsame id).2, State.unit_setMetaprogram_self]
          exact ⟨rfl, rfl⟩
        · rw [(hsame id).1, (hsame id).2, st.unit_setMetaprogram_of_ne uid _ heq]
          exact ⟨rfl, rfl⟩
      · by_cases heq : id = uid
        · subst heq
          exact .inr (congrArg PkgUnit.metaprogram (st.unit_setMetaprogram_self id _))
        · rw [st.unit_setMetaprogram_of_ne uid _ heq]
          exact hid.imp_left fun h => ⟨(List.mem_cons.1 h.1).resolve_left heq, h.2⟩
    · obtain ⟨st', hst', horder, hsame, hset⟩ := ih htail hst
      rw [if_neg hscripts, Option.bind_eq_bind, Option.bind_some]
      refine ⟨st', hst', horder, hsame, fun id hid => hset id ?_⟩
      refine hid.imp_left fun h => ⟨(List.mem_cons.1 h.1).resolve_left ?_, h.2⟩
      rintro rfl
      exact hscripts h.2

/-! ## All packages -/

theorem build_of_mem_depsOf {build : ℕ} {kinds : UInt32} {edges : List ResolvedDep}
    {dep : PkgDep UnitId} (h : dep ∈ depsOf build kinds edges) : dep.unit.build = build := by
  obtain ⟨edge, -, rfl⟩ := List.mem_map.1 h
  rfl

/-- The loops end and no assertion fails. The dependencies of a unit are the edges of its package
whose kind it has, in its own build; the units of a target build are reached from its root; and a
unit whose package has scripts has one to run them, of the kind BUILD. -/
theorem addPackages_complete (hs : s.Complete) (hplans : s.metaprogram ∉ s.plans) :
    ∃ st, s.addPackages D = some st ∧
      (∀ build ∈ s.plans, ⟨s.rootPkg, build⟩ ∈ st.order) ∧
      (∀ id ∈ st.order,
        (st.unit id).deps = depsOf id.build (st.unit id).kinds (s.edgesOf id.pkg) ∧
        ∀ dep ∈ (st.unit id).deps, dep.unit ∈ st.order ∧ dep.unit.build = id.build) ∧
      (∀ id ∈ st.order, id.build ≠ s.metaprogram →
        ReflTransGen (Leads st) ⟨s.rootPkg, id.build⟩ id) ∧
      ∀ id ∈ st.order, s.hasScripts id.pkg →
        ⟨id.pkg, s.metaprogram⟩ ∈ st.order ∧
        kindBit .build &&& (st.unit ⟨id.pkg, s.metaprogram⟩).kinds ≠ 0 ∧
        (st.unit id).metaprogram = some ⟨id.pkg, s.metaprogram⟩ := by
  obtain ⟨st₁, hst₁, hinv₁, hreached₁, hmembers₁, hroots₁⟩ :=
    addRoots_spec (D := D) hs hplans
  obtain ⟨st₂, hst₂, hinv₂, hreached₂, ⟨hmembers₂, -⟩, hdone₂, hkeeps₂⟩ :=
    drain_members (D := D) hs st₁ hinv₁ hreached₁ hmembers₁
  have howners : ∀ id ∈ s.owners st₂, s.Known id.pkg := fun id hid =>
    (hinv₂.known id (List.mem_of_mem_filter hid)).1
  have honly₂ : Only s st₂ st₂ :=
    ⟨fun id hid => absurd hid (hdone₂ ▸ List.not_mem_nil), fun id hid _ => hid⟩
  obtain ⟨st₃, hst₃, hinv₃, hreached₃, hmembers₃, honly₃, hserved₃, hkeeps₃⟩ :=
    addScriptDeps_spec (D := D) hs howners hinv₂ hreached₂ hmembers₂ honly₂
  obtain ⟨st₄, hst₄, hinv₄, hreached₄, ⟨hmembers₄, honly₄⟩, hdone₄, hkeeps₄⟩ :=
    drain_members (D := D) hs st₂ hinv₃ hreached₃ hmembers₃
  obtain ⟨st₅, hst₅, hinv₅, hreached₅, hhosted₅, honly₅, hhosts₅, hkeeps₅⟩ :=
    addHosts_spec (D := D) hs howners hinv₄ hreached₄ hmembers₄ (honly₄ honly₃) hdone₄
      fun id hid edge hedge hkind => (hkeeps₄ _ (hserved₃ id hid edge hedge hkind)).1
  obtain ⟨st₆, hst₆, hinv₆, hreached₆, ⟨hhosted₆, honly₆⟩, hdone₆, hkeeps₆⟩ :=
    drain_hosts (D := D) hs hinv₅ hreached₅ hhosted₅ honly₅
  have hkeeps : Keeps st₂ st₆ := (hkeeps₃.trans hkeeps₄).trans (hkeeps₅.trans hkeeps₆)
  have hworld : ∀ id ∈ st₆.order, s.hasScripts id.pkg → ⟨id.pkg, s.metaprogram⟩ ∈ st₆.order := by
    intro id hid hscripts
    by_cases hbuild : id.build = s.metaprogram
    · rw [← hbuild]
      exact hid
    · have howner : id ∈ s.owners st₂ :=
        List.mem_filter.2 ⟨honly₆.2 id hid hbuild, by simp [hbuild, hscripts]⟩
      exact (hkeeps₆ _ (hhosts₅ id howner)).1
  obtain ⟨st, hst, horder, hsame, hset⟩ := foldlM_link st₆.order hworld rfl
  refine ⟨st, ?_, fun build hbuild => ?_, fun id hid => ?_, fun id hid hbuild => ?_,
    fun id hid hscripts => ?_⟩
  · simp only [addPackages, hst₁, hst₂, hst₃, hst₄, hst₅, hst₆, Option.bind_eq_bind,
      Option.bind_some, link]
    exact hst
  · rw [horder]
    exact (hkeeps _ (hkeeps₂ _ (hroots₁ build hbuild)).1).1
  · rw [horder] at hid ⊢
    have hfull := hinv₆.full id hid (hdone₆ ▸ List.not_mem_nil) List.not_mem_nil
    rw [(hsame id).1, (hsame id).2]
    refine ⟨hfull, fun dep hdep => ⟨hinv₆.closed id hid dep hdep, ?_⟩⟩
    rw [hfull] at hdep
    exact build_of_mem_depsOf hdep
  · rw [horder] at hid
    refine ReflTransGen.mono (fun _ _ hleads => ?_) _ _ (hreached₆ id hid hbuild)
    refine hleads.mono (fun id hid => horder ▸ hid) fun id _ => ?_
    rw [(hsame id).2]
    exact List.Subset.refl _
  · rw [horder] at hid ⊢
    have hin := hworld id hid hscripts
    refine ⟨hin, ?_, hset id (.inl ⟨hid, hscripts⟩)⟩
    rw [(hsame _).1]
    obtain hkinds | hkinds := hhosted₆.2 _ hin rfl
    · rw [hkinds]
      decide
    · rw [hkinds]
      decide

/-! ## Two sessions -/

def rootId : PkgId := ⟨[1], ⟨1, 0, 0⟩, 0⟩

def toolId : PkgId := ⟨[2], ⟨1, 0, 0⟩, 0⟩

def libId : PkgId := ⟨[3], ⟨1, 0, 0⟩, 0⟩

/-- A session in which the packages of a list have a build script. -/
def scripted (resolve : Graph) (scripts : List PkgId) (plans : List ℕ) : Session where
  content :=
    { resolve := resolve
      packages := fun id => ⟨id.qualified, id.qualified, id.version, [], 0, []⟩
      config := []
      profile := ⟨fun _ => none, []⟩
      options := []
      seeds := []
      resolves := 0 }
  packages id := some ⟨[], if id ∈ scripts then [[9]] else []⟩
  plans := plans
  metaprogram := 0
  builds _ := plainBuild

/-- A session in which every edge leads to a package of a lower rank. -/
theorem scripted_complete {resolve : Graph} {scripts : List PkgId} {plans : List ℕ}
    (hroot : ∃ node ∈ resolve.nodes, node.source = .root)
    (hclosed : ∀ node ∈ resolve.nodes, ∀ edge ∈ node.edges, ∃ node' ∈ resolve.nodes,
      node'.id = edge.id)
    (rank : PkgId → ℕ)
    (hrank : ∀ node ∈ resolve.nodes, ∀ edge ∈ node.edges, rank edge.id < rank node.id) :
    (scripted resolve scripts plans).Complete where
  acyclic := acyclic_of_rank rank fun above below hbelow => by
    obtain ⟨edge, hedge, rfl⟩ := hbelow
    rw [Spn.Options.Session.edgesOf] at hedge
    cases hfind : (scripted resolve scripts plans).content.node? above with
    | none =>
      rw [hfind] at hedge
      exact absurd hedge List.not_mem_nil
    | some node =>
      rw [hfind] at hedge
      have hid : node.id = above := by simpa using List.find?_some hfind
      exact hid ▸ hrank node (List.mem_of_find?_eq_some hfind) edge hedge
  root := hroot
  closed := hclosed
  loaded _ _ := rfl

/-- The root is built twice, with a library and with a tool its script needs, which needs the
library too. -/
def toolSession : Session :=
  scripted
    { nodes :=
        [⟨rootId, [1], .empty, .root,
            [⟨libId, .package, .scope, false⟩, ⟨toolId, .build, .process, false⟩], none⟩,
          ⟨toolId, [2], .empty, .index, [⟨libId, .package, .scope, false⟩], none⟩,
          ⟨libId, [3], .empty, .index, [], none⟩]
      distinct := by decide }
    [rootId, toolId] [1, 2]

theorem toolSession_complete : toolSession.Complete :=
  scripted_complete (by decide) (by decide)
    (fun id => if id = rootId then 2 else if id = toolId then 1 else 0) (by decide)

theorem addPackages_complete_tool :
    ∃ st, toolSession.addPackages numbering = some st ∧
      st.order = [⟨rootId, 1⟩, ⟨rootId, 2⟩, ⟨libId, 1⟩, ⟨libId, 2⟩, ⟨toolId, 0⟩, ⟨libId, 0⟩,
        ⟨rootId, 0⟩] ∧
      (∀ id ∈ st.order, (st.unit id).deps =
        depsOf id.build (st.unit id).kinds (toolSession.edgesOf id.pkg)) ∧
      (st.unit ⟨rootId, 1⟩).metaprogram = some ⟨rootId, 0⟩ ∧
      (st.unit ⟨toolId, 0⟩).metaprogram = some ⟨toolId, 0⟩ := by
  have horder : (toolSession.addPackages numbering).map State.order =
      some [⟨rootId, 1⟩, ⟨rootId, 2⟩, ⟨libId, 1⟩, ⟨libId, 2⟩, ⟨toolId, 0⟩, ⟨libId, 0⟩,
        ⟨rootId, 0⟩] := by decide +kernel
  obtain ⟨st, hst, -, hunits, -, hscripts⟩ :=
    @addPackages_complete numbering toolSession toolSession_complete (by decide)
  rw [hst] at horder
  have horder := Option.some.inj horder
  exact ⟨st, hst, horder, fun id hid => (hunits id hid).1,
    (hscripts ⟨rootId, 1⟩ (by rw [horder]; decide) (by decide)).2.2,
    (hscripts ⟨toolId, 0⟩ (by rw [horder]; decide) (by decide)).2.2⟩

/-- The root has no scripts and a build dependency, which has. -/
def idleSession : Session :=
  scripted
    { nodes :=
        [⟨rootId, [1], .empty, .root, [⟨toolId, .build, .process, false⟩], none⟩,
          ⟨toolId, [2], .empty, .index, [], none⟩]
      distinct := by decide }
    [toolId] [1]

theorem idleSession_complete : idleSession.Complete :=
  scripted_complete (by decide) (by decide) (fun id => if id = rootId then 1 else 0) (by decide)

/-- The package with scripts has no unit in any build. -/
theorem idle_scripts_have_no_unit :
    idleSession.Complete ∧ idleSession.metaprogram ∉ idleSession.plans ∧
      idleSession.Known toolId ∧ idleSession.hasScripts toolId = true ∧
      ∃ st, idleSession.addPackages numbering = some st ∧ ∀ id ∈ st.order, id.pkg ≠ toolId := by
  refine ⟨idleSession_complete, by decide,
    ⟨_, List.mem_cons_of_mem _ List.mem_cons_self, rfl⟩, by decide, ?_⟩
  have horder : (idleSession.addPackages numbering).map State.order = some [⟨rootId, 1⟩] := by
    decide +kernel
  obtain ⟨st, hst, hunits⟩ := Option.map_eq_some_iff.1 horder
  refine ⟨st, hst, fun id hid => ?_⟩
  rw [hunits] at hid
  rw [List.mem_singleton.1 hid]
  decide

end Session
end Spn.Units
