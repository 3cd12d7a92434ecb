import FileRoutes.Event

/-! A route table in the making: shared middleware and the endpoints so far. A change that names an
endpoint that is not there is refused and leaves the table as it was. -/

namespace FileRoutes

structure RouteTable (F : Type) where
  shared : SharedMiddleware F := {}
  endpoints : List (Endpoint F) := []

inductive TableError where
  | noRoute
  | noOther
deriving DecidableEq, Repr

variable {F : Type}

namespace RouteTable

def addCore (table : RouteTable F) (added : List (Middleware F)) : RouteTable F :=
  { table with shared := { table.shared with core := table.shared.core ++ added } }

def addGlobal (table : RouteTable F) (added : List (Middleware F)) : RouteTable F :=
  { table with shared := { table.shared with global := table.shared.global ++ added } }

def addEndpoint (table : RouteTable F) (endpoint : Endpoint F) : RouteTable F :=
  { table with endpoints := table.endpoints ++ [endpoint] }

def endpoint (table : RouteTable F) (route : Nat) : Except TableError (Endpoint F) :=
  match table.endpoints[route]? with
  | some endpoint => .ok endpoint
  | none => .error .noRoute

def changeEndpoint (table : RouteTable F) (route : Nat) (change : Endpoint F → Endpoint F) :
    Except TableError (RouteTable F × Endpoint F) :=
  (table.endpoint route).map fun endpoint =>
    ({ table with endpoints := table.endpoints.set route (change endpoint) }, change endpoint)

/-- The order of two endpoints. If both are missing, the other one is told. -/
def compare (table : RouteTable F) (route other : Nat) : Except TableError Ordering :=
  match table.endpoints[other]? with
  | none => .error .noOther
  | some b =>
    (table.endpoint route).map fun a => Specificity.compare a.specificity b.specificity

end RouteTable

namespace Endpoint

def wrap (endpoint : Endpoint F) (wrapper : Middleware F) : Endpoint F :=
  { endpoint with wrappers := endpoint.wrappers ++ [wrapper] }

def declare (endpoint : Endpoint F) (added : List (Declaration F)) : Endpoint F :=
  { endpoint with declarations := endpoint.declarations ++ added }

end Endpoint

end FileRoutes
