/-!
JSON values as reports need them. The fields of an object keep their order.
-/

namespace KeyChart

inductive Json
  | bool (b : Bool)
  | number (n : Nat)
  | text (s : String)
  | list (items : List Json)
  | object (fields : List (String × Json))

end KeyChart
