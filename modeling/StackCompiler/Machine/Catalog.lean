/-
Catalogues of templates. For decoding, templates are grouped by the number of
their fixed bits, the largest first, and inside a group by the mask of these
bits, in the order in which masks first appear.
-/
import StackCompiler.Machine.Template

namespace StackCompiler

/-- Templates with one mask of fixed bits, in catalogue order. -/
structure MaskGroup where
  mask : BitVec 32
  templates : List Template
deriving Repr

/-- Templates with equally many fixed bits. -/
structure SpecificityGroup where
  specificity : Nat
  maskGroups : List MaskGroup
deriving Repr

/-- Templates, and the order in which a decoder tries them. -/
structure Catalog where
  templates : Array Template
  groups : List SpecificityGroup
deriving Repr

namespace Catalog

/-- The masks of templates, each where it first appears. -/
def maskGroups (templates : List Template) : List MaskGroup :=
  (templates.map (·.opcodeMask)).eraseDups.map fun mask =>
    ⟨mask, templates.filter (·.opcodeMask = mask)⟩

/-- The groups of templates, most specific first. -/
def groupsOf (templates : List Template) : List SpecificityGroup :=
  let levels := (templates.map (·.specificity)).eraseDups.mergeSort fun a b => a ≥ b
  levels.map fun n => ⟨n, maskGroups (templates.filter (·.specificity = n))⟩

def number (templates : List Template) : List Template :=
  templates.mapIdx fun i t => { t with serial := i }

def validate : List Template → Except AssemblyError Unit
  | [] => .ok ()
  | t :: rest =>
    match t.validate with
    | .error e => .error e
    | .ok () => validate rest

def ofTemplates (templates : List Template) : Except AssemblyError Catalog :=
  let numbered := number templates
  match validate numbered with
  | .error e => .error e
  | .ok () => .ok ⟨numbered.toArray, groupsOf numbered⟩

/-- The templates whose fixed bits a word has, most specific first. -/
def candidates (c : Catalog) (w : BitVec 32) : List Template :=
  c.groups.flatMap fun g =>
    g.maskGroups.flatMap fun m => m.templates.filter fun t => t.opcode = w &&& m.mask

end Catalog
end StackCompiler
