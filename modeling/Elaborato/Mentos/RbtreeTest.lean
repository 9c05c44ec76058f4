import Elaborato.Foundation.Execution
import Elaborato.Mentos.RbtreeHeap

/-!
What `rbtree_tree_test` accepts: it checks the order only between a node and its kids.
-/
namespace Elaborato.Mentos.Rbtree
open Foundation Foundation.ColorTree List

variable {P V : Type} {m : Heap P V} {t : ColorTree P V} {cmp : V → V → Int} {fuel : Nat}

variable {values : List V} {v : V}

variable {h : Nat}

variable {a : P} {c : Bool} {kids : Bool → ColorTree P V} {lh rh : Nat}

attribute [local simp] toList pair

end Elaborato.Mentos.Rbtree
