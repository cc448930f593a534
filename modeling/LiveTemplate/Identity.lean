/-!
Identities. Values and parts of rendered trees are told apart by more than their content: what was
made at different times differs, and what is handed on is still the same.
-/

namespace LiveTemplate

set_option autoImplicit false

abbrev Identity := Nat

/-- A source of identities that nothing has yet. -/
abbrev Fresh := StateM Nat

def freshId : Fresh Identity := modifyGet fun n => (n, n + 1)

end LiveTemplate
