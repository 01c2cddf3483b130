import Spn.Dag.Files
import Spn.Dag.Keys
import Spn.Glob.Shape

/-! # Globbing a file tree

`spn_dag_glob` of `dag/glob.c` and `resolve_one` with `membership_digest` of `dag/run.c`. A
tree is what is under the root of a pattern, without symbolic links. Globs and the hash are
not of the program; their `Sp` says what is used of them.
-/
namespace Spn.Glob

open Spn.Lib
open Spn.Lib.Glob (Tok Matches Plain)
open Spn.Dag (Obs ObsKind Node hashU64 hashStr)

/-! ## What is used of the library -/

/-- `sp_glob`, BLAKE3 and the numbers of the kinds of entries. -/
structure Sp where
  Compiled : Type
  globNew : Str → Option Compiled
  globMatch : Compiled → Str → Bool
  Digest : Type
  zero : Digest
  blake3 : List UInt8 → Digest
  fileKind : UInt8
  dirKind : UInt8

def ValidName (n : Str) : Prop := n ≠ [] ∧ slash ∉ n

instance (n : Str) : Decidable (ValidName n) := by unfold ValidName; infer_instance

/-- A path of names. -/
def joined (names : List Str) : Str := [slash].intercalate names

/-- A glob matches what its pattern does, given how a component matches a name; the hash is
free of collisions and never the empty digest. -/
structure Sp.Documented (S : Sp) (name : List Tok → Str → Prop) : Prop where
  matches_iff : ∀ p glob, S.globNew p = some glob → ∀ names, names ≠ [] →
    (∀ n ∈ names, ValidName n) → (S.globMatch glob (joined names) = true ↔ Matches name p names)
  injective : Function.Injective S.blake3
  nonzero : ∀ bytes, S.blake3 bytes ≠ S.zero
  kinds : S.fileKind ≠ S.dirKind

/-! ## File trees -/

/-- A tree of files under a root: what is at each path of names. Sizes are counted in 64
bits. -/
structure FileTree where
  entries : List (List Str × Node)
  distinct : (entries.map Prod.fst).Nodup
  named : ∀ e ∈ entries, e.1 ≠ [] ∧ ∀ n ∈ e.1, ValidName n
  parents : ∀ e ∈ entries, e.1.dropLast = [] ∨ (e.1.dropLast, .dir) ∈ entries
  small : entries.length < 2 ^ 64 ∧ ∀ e ∈ entries, ∀ n ∈ e.1, n.length < 2 ^ 64

/-- `sp_fs_kind_t`. -/
inductive Kind
  | file | dir
  deriving DecidableEq, Repr

def kindOf : Node → Kind
  | .file _ => .file
  | .dir => .dir

/-- The errors of a look at a path that are told apart. -/
inductive FsErr
  | notFound | notDir
  deriving DecidableEq, Repr

namespace FileTree

variable (t : FileTree)

/-- What is at a path of names; the root itself is a directory. -/
def node (place : List Str) : Option Node :=
  if place = [] then some .dir else (t.entries.find? fun e => e.1 = place).map Prod.snd

/-- Whether a file is at a path. -/
def isFile (place : List Str) : Bool :=
  match t.node place with
  | some (.file _) => true
  | _ => false

/-- `sp_sys_get_path_metadata`: below a file there is no directory to look in. -/
def stat (place : List Str) : Except FsErr Node :=
  match t.node place with
  | some node => .ok node
  | none => .error (if place.inits.any t.isFile then .notDir else .notFound)

/-- The error of `sp_fs_it_new_at`, if any. -/
def openDir (place : List Str) : Option FsErr :=
  match t.stat place with
  | .ok .dir => none
  | .ok (.file _) => some .notDir
  | .error e => some e

/-- `sp_fs_it_walk`: all that is below a directory, by the names from there. -/
def beneath (place : List Str) : List (List Str × Kind) :=
  t.entries.filterMap fun e =>
    if place <+: e.1 ∧ e.1 ≠ place then some (e.1.drop place.length, kindOf e.2) else none

/-- `sp_fs_it_next`: the members of a directory. -/
def children (place : List Str) : List (Str × Kind) :=
  (t.beneath place).filterMap fun
    | ([n], kind) => some (n, kind)
    | _ => none

end FileTree

/-- The names of a path from its root. -/
def place (p : Path) : List Str := (p.sub.splitOn slash).filter (· ≠ [])

/-- `spn_path_join`. -/
def join (base : Path) (rel : Str) : Path :=
  { base with sub := if base.sub = [] then rel else base.sub ++ slash :: rel }

/-! ## What rows resolve to -/

section

variable (S : Sp)

/-- The number of a kind. -/
def Sp.kind : Kind → UInt8
  | .file => S.fileKind
  | .dir => S.dirKind

/-- The filter of `membership_digest`: directories are always members. -/
def Sp.passes (filter : Option S.Compiled) (member : Str × Kind) : Bool :=
  match member.2, filter with
  | .file, some glob => S.globMatch glob member.1
  | _, _ => true

/-- The members of a directory that are hashed, by their names. -/
def Sp.members (t : FileTree) (dir : List Str) (filter : Option S.Compiled) : List (Str × UInt8) :=
  (((t.children dir).filter (S.passes filter)).map fun member =>
    (member.1, S.kind member.2)).insertionSort fun a b => a.1 ≤ b.1

/-- What is hashed of the members of a directory. -/
def listing (members : List (Str × UInt8)) : List UInt8 :=
  hashStr (str "spn.dag.enum.v1") ++ (hashU64 members.length ++
    members.flatMap fun member => hashStr member.1 ++ [member.2])

/-- `membership_digest`. A directory that cannot be read has no members. -/
def Sp.membershipDigest (t : FileTree) (dir : List Str) (filter : Str) : Option S.Digest :=
  if filter = [] then some (S.blake3 (listing (S.members t dir none)))
  else
    match S.globNew filter with
    | none => none
    | some glob => some (S.blake3 (listing (S.members t dir (some glob))))

/-- The end of `resolve_one`: a directory is enumerated, a file is hashed. -/
def Sp.resolveNode (t : FileTree) (at_ : List Str) : Option S.Digest :=
  match t.stat at_ with
  | .error _ => none
  | .ok .dir => S.membershipDigest t at_ []
  | .ok (.file bytes) => some (S.blake3 bytes)

/-- `resolve_one`. -/
def Sp.resolveOne (t : FileTree) (o : Obs) : Option S.Digest :=
  match o.kind with
  | .enumeration => S.membershipDigest t (place o.path) o.filter
  | .absent =>
    match t.stat (place o.path) with
    | .error .notFound => some S.zero
    | .error .notDir => none
    | .ok _ => S.resolveNode t (place o.path)
  | .file => S.resolveNode t (place o.path)

/-! ## The glob -/

/-- `spn_dag_glob_match_t`. -/
@[ext] structure GlobMatch where
  path : Path
  rel : Str
  deriving DecidableEq, Repr

/-- `spn_dag_glob_result_t`. -/
structure GlobResult where
  obs : List Obs
  matched : List GlobMatch
  deriving DecidableEq, Repr

/-- What the iterator goes through: all that is below the base, or its members. -/
def walked (t : FileTree) (base : List Str) (recursive : Bool) : List (List Str × Kind) :=
  if recursive then t.beneath base
  else (t.children base).map fun member => ([member.1], member.2)

/-- `spn_dag_glob_it_next`: whether an entry is yielded. -/
def Sp.yields (recursive : Bool) (glob : S.Compiled) (entry : List Str × Kind) : Bool :=
  match entry.2 with
  | .dir => recursive
  | .file => S.globMatch glob (joined entry.1)

/-- The row for an entry. -/
def rowOf (base : Path) (name : Str) (entry : List Str × Kind) : Obs :=
  match entry.2 with
  | .dir => ⟨.enumeration, join base (joined entry.1), name⟩
  | .file => ⟨.file, join base (joined entry.1), []⟩

/-- The match for an entry. -/
def matchOf (base : Path) (entry : List Str × Kind) : Option GlobMatch :=
  match entry.2 with
  | .dir => none
  | .file => some ⟨join base (joined entry.1), joined entry.1⟩

/-- `spn_dag_glob` of a pattern without a metacharacter. -/
def globLiteral (t : FileTree) (pattern : Path) (name : Str) : Option GlobResult :=
  match t.stat (place pattern) with
  | .ok (.file _) =>
    some ⟨[⟨.file, pattern, []⟩], [⟨pattern, pattern.sub.drop (pattern.sub.length - name.length)⟩]⟩
  | .ok .dir => some ⟨[⟨.file, pattern, []⟩], []⟩
  | .error .notFound => some ⟨[⟨.absent, pattern, []⟩], []⟩
  | .error .notDir => none

/-- The directory a pattern starts from. -/
def baseOf (pattern : Path) : Path := { pattern with sub := (parseMeta pattern.sub).dir }

/-- The end of `spn_dag_glob`: the rows and the matches of what the iterator yields. Matches
are sorted by their paths. -/
def Sp.collect (t : FileTree) (base : Path) (shape : Meta) (glob : S.Compiled) : GlobResult :=
  let entries := (walked t (place base) shape.deep).filter (S.yields shape.deep glob)
  { obs := ⟨.enumeration, base, shape.name⟩ :: entries.map (rowOf base shape.name)
    matched := (entries.filterMap (matchOf base)).insertionSort fun a b => a.path.sub ≤ b.path.sub }

/-- `spn_dag_glob`. -/
def Sp.dagGlob (t : FileTree) (pattern : Path) : Option GlobResult :=
  let shape := parseMeta pattern.sub
  if shape.literal then globLiteral t pattern shape.name
  else
    match S.globNew shape.rest with
    | none => none
    | some glob =>
      if t.openDir (place (baseOf pattern)) = some .notDir then none
      else some (S.collect t (baseOf pattern) shape glob)

end

/-! ## What is where -/

namespace FileTree

variable {t : FileTree}

/-- There is something of a kind at a path. -/
def Has (t : FileTree) (place : List Str) (kind : Kind) : Prop :=
  ∃ node, (place, node) ∈ t.entries ∧ kindOf node = kind

theorem node_eq_some {place : List Str} (hplace : place ≠ []) {x : Node} :
    t.node place = some x ↔ (place, x) ∈ t.entries := by
  rw [node, if_neg hplace, Option.map_eq_some_iff]
  constructor
  · rintro ⟨⟨names, node⟩, hfind, rfl⟩
    obtain rfl : names = place := by simpa using List.find?_some hfind
    exact List.mem_of_find?_eq_some hfind
  · intro hmem
    cases hfind : t.entries.find? fun e => e.1 = place with
    | none =>
      have hno := List.find?_eq_none.1 hfind _ hmem
      simp at hno
    | some e =>
      have heq : e.1 = place := by simpa using List.find?_some hfind
      refine ⟨e, rfl, ?_⟩
      rw [List.inj_on_of_nodup_map t.distinct (List.mem_of_find?_eq_some hfind) hmem heq]

theorem mem_beneath {place rel : List Str} {kind : Kind} :
    (rel, kind) ∈ t.beneath place ↔ rel ≠ [] ∧ t.Has (place ++ rel) kind := by
  simp only [beneath, List.mem_filterMap, Option.ite_none_right_eq_some, Option.some.injEq,
    Prod.mk.injEq]
  constructor
  · rintro ⟨⟨names, node⟩, hmem, ⟨⟨rest, rfl⟩, hne⟩, rfl, rfl⟩
    simp only [List.drop_left]
    exact ⟨fun h => hne (by simp [h]), node, hmem, rfl⟩
  · rintro ⟨hne, node, hmem, rfl⟩
    exact ⟨_, hmem, ⟨List.prefix_append _ _, by simpa using hne⟩, List.drop_left, rfl⟩

theorem mem_children {place : List Str} {n : Str} {kind : Kind} :
    (n, kind) ∈ t.children place ↔ t.Has (place ++ [n]) kind := by
  rw [children, List.mem_filterMap]
  constructor
  · rintro ⟨⟨rel, k⟩, hmem, heq⟩
    match rel, hmem, heq with
    | [m], hmem, heq =>
      cases heq
      exact (mem_beneath.1 hmem).2
  · intro h
    exact ⟨([n], kind), mem_beneath.2 ⟨List.cons_ne_nil _ _, h⟩, rfl⟩

theorem Has.unique {place : List Str} {kind kind' : Kind} (h : t.Has place kind)
    (h' : t.Has place kind') : kind = kind' := by
  obtain ⟨node, hmem, rfl⟩ := h
  obtain ⟨node', hmem', rfl⟩ := h'
  have heq := List.inj_on_of_nodup_map t.distinct hmem hmem' rfl
  rw [(Prod.mk.inj heq).2]

/-- What is below a directory is in it or in a directory below it. -/
theorem Has.parent {place rel : List Str} {n : Str} {kind : Kind}
    (h : t.Has (place ++ (rel ++ [n])) kind) (hrel : rel ≠ []) : t.Has (place ++ rel) .dir := by
  obtain ⟨node, hmem, -⟩ := h
  rcases t.parents _ hmem with hempty | hparent
  · rw [← List.append_assoc, List.dropLast_concat] at hempty
    exact absurd (List.append_eq_nil_iff.1 hempty).2 hrel
  · rw [← List.append_assoc, List.dropLast_concat] at hparent
    exact ⟨.dir, hparent, rfl⟩

theorem Has.valid {place rel : List Str} {kind : Kind} (h : t.Has (place ++ rel) kind) :
    ∀ n ∈ rel, ValidName n := by
  obtain ⟨node, hmem, -⟩ := h
  exact fun n hn => (t.named _ hmem).2 n (List.mem_append_right _ hn)

end FileTree

/-! ## Paths and names -/

theorem splitOn_joined {names : List Str} (hne : names ≠ []) (h : ∀ n ∈ names, ValidName n) :
    (joined names).splitOn slash = names :=
  List.splitOn_intercalate slash (fun n hn => (h n hn).2) hne

theorem joined_injective {a b : List Str} (ha : a ≠ []) (hb : b ≠ [])
    (hva : ∀ n ∈ a, ValidName n) (hvb : ∀ n ∈ b, ValidName n) (h : joined a = joined b) :
    a = b := by
  rw [← splitOn_joined ha hva, ← splitOn_joined hb hvb, h]

theorem joined_singleton (n : Str) : joined [n] = n := by simp [joined]

theorem place_join (base : Path) {rel : List Str} (hne : rel ≠ []) (h : ∀ n ∈ rel, ValidName n) :
    place (join base (joined rel)) = place base ++ rel := by
  have hrel : rel.filter (· ≠ []) = rel :=
    List.filter_eq_self.2 fun n hn => by simpa using (h n hn).1
  by_cases hbase : base.sub = []
  · have hroot : ([[]] : List Str).filter (· ≠ []) = [] := rfl
    rw [place, place, join]
    simp only [if_pos hbase]
    rw [splitOn_joined hne h, hrel, hbase, List.splitOn_nil, hroot, List.nil_append]
  · simp only [place, join, if_neg hbase, List.splitOn_append_cons_self, splitOn_joined hne h,
      List.filter_append, hrel]

theorem join_injective {base : Path} {a b : Str} (h : join base a = join base b) : a = b := by
  have hsub := congrArg Path.sub h
  simp only [join] at hsub
  split_ifs at hsub
  · exact hsub
  · simpa using hsub

end Spn.Glob
