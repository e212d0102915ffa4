import ScriptIndex.Definition.Basic

/-! # Indexes of definitions

An index has a bucket of definitions for each name and a site for each defining node. Names and nodes
stand in the order in which they came; one that goes and comes back comes last. -/

namespace ScriptIndex

structure Bucket where
  name : String
  definitions : List Definition
deriving Repr, DecidableEq

structure Index where
  buckets : List Bucket
  sites : List Site
deriving Repr, DecidableEq

namespace Index

def empty : Index := ⟨[], []⟩

def bucket? (index : Index) (name : String) : Option Bucket :=
  index.buckets.find? fun b => b.name = name

/-- The definitions under a name, in the order in which they came. -/
def definitions (index : Index) (name : String) : List Definition :=
  match index.bucket? name with
  | some b => b.definitions
  | none => []

def names (index : Index) : List String := index.buckets.map (·.name)

def site? (index : Index) (node : NodeId) : Option Site :=
  index.sites.find? fun s => s.node = node

/-- Adds a definition to the bucket of a name, which is made if there is none. -/
def addTo (name : String) (d : Definition) : List Bucket → List Bucket
  | [] => [⟨name, [d]⟩]
  | b :: rest =>
    if b.name = name then ⟨name, b.definitions ++ [d]⟩ :: rest else b :: addTo name d rest

/-- Takes the first such definition out of the bucket of a name, and an empty bucket away. -/
def takeFrom (name : String) (d : Definition) : List Bucket → List Bucket
  | [] => []
  | b :: rest =>
    if b.name = name then
      match b.definitions.erase d with
      | [] => rest
      | definitions => ⟨name, definitions⟩ :: rest
    else b :: takeFrom name d rest

/-- Puts a site in the place of the one for the same node, or last. -/
def putSite (site : Site) : List Site → List Site
  | [] => [site]
  | s :: rest => if s.node = site.node then site :: rest else s :: putSite site rest

/-- Takes away the site of a definition: the one at its l-value, or else the first. -/
def dropSite (d : Definition) (sites : List Site) : List Site :=
  let own (s : Site) : Bool := s.node = d.lvalue && s.definition = d
  if sites.any own then sites.eraseP own else sites.eraseP fun s => s.definition = d

def insert (index : Index) (name : String) (site : Site) : Index :=
  ⟨addTo name site.definition index.buckets, putSite site index.sites⟩

/-- Takes one such definition away from a name, and a site that records it; none if there is no such
definition. -/
def remove? (index : Index) (name : String) (d : Definition) : Option Index :=
  if (index.definitions name).contains d then
    some ⟨takeFrom name d index.buckets, dropSite d index.sites⟩
  else none

/-- Whether two indexes hold the same, whatever the order of names and of nodes. The order within a
bucket counts. -/
def equiv (a b : Index) : Bool :=
  a.buckets.length == b.buckets.length && a.sites.length == b.sites.length
    && a.buckets.all (fun x => b.bucket? x.name == some x)
    && a.sites.all (fun x => b.site? x.node == some x)

theorem definitions_addTo (buckets : List Bucket) (sites sites' : List Site) (name other : String)
    (d : Definition) :
    Index.definitions ⟨addTo name d buckets, sites⟩ other
      = if name = other then Index.definitions ⟨buckets, sites'⟩ other ++ [d]
        else Index.definitions ⟨buckets, sites'⟩ other := by
  induction buckets with
  | nil => by_cases h : name = other <;> simp [addTo, definitions, bucket?, h]
  | cons b rest ih =>
    simp only [addTo]
    by_cases hb : b.name = name <;> by_cases ho : b.name = other <;> by_cases h : name = other <;>
      simp_all [definitions, bucket?]

theorem definitions_insert (index : Index) (name other : String) (site : Site) :
    (index.insert name site).definitions other
      = if name = other then index.definitions other ++ [site.definition]
        else index.definitions other :=
  definitions_addTo index.buckets _ index.sites name other site.definition

theorem find?_putSite (sites : List Site) (site : Site) (node : NodeId) :
    (putSite site sites).find? (fun s => s.node = node)
      = if site.node = node then some site else sites.find? fun s => s.node = node := by
  induction sites with
  | nil => by_cases h : site.node = node <;> simp [putSite, h]
  | cons s rest ih =>
    simp only [putSite]
    by_cases hs : s.node = site.node <;> by_cases hn : s.node = node <;> by_cases h : site.node = node <;>
      simp_all

theorem site?_insert (index : Index) (name : String) (site : Site) (node : NodeId) :
    (index.insert name site).site? node = if site.node = node then some site else index.site? node :=
  find?_putSite index.sites site node

end Index

end ScriptIndex
