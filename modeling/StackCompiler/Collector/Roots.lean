/-
Roots in code: the reference literals of all installed methods.
-/
import StackCompiler.Bundle.Install
import StackCompiler.Collector.MarkingStack

namespace StackCompiler.CodeCache

def rootsOf (m : CompiledMethod) : List Cell :=
  let base := m.start + m.bundle.ownLayout.offset .references
  (List.range m.bundle.references.length).map fun i => base + i * Convention.referenceSize

/-- The addresses of all reference literals, method by method in the order of installation. -/
def roots (s : CodeCache) : List Cell := s.installed.flatMap rootsOf

def scanRoots (s : CodeCache) (fuel : Nat) : Marking Nat := do
  Marking.pushAll fuel s.roots
  pure s.roots.length

end StackCompiler.CodeCache
