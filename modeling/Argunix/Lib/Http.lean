import Mathlib.Logic.Function.Basic
import Argunix.Lib.Json

/-!
# Requests, and servers that keep objects

A program sends a request and gets a response, or none. What the servers have is a state that it
does not see.

Nor does it see what object a URL is about. Between the text of a URL and the object lie the client,
which drops the fragment and resolves dot segments, and the server, which decodes escapes and may
take what follows a question mark for another operation. So two texts may name one object, and a
text none. `object` and `contents` are parameters here: `Gets` and `Writes` say what a server that
keeps its objects does with a request, and nothing is said of a request that names no object.
-/

set_option autoImplicit false

namespace Argunix.Lib

/-- The methods that are used. -/
inductive Method
  | get
  | put
  | post
  | delete
deriving DecidableEq, Repr

/-- What a request carries. -/
inductive Body
  | empty
  | bytes (data : List UInt8)
  | json (value : Json)

/-- A request, before its URL is parsed. -/
structure Request where
  method : Method
  url : String
  headers : List (String × String)
  body : Body

/-- An answer. -/
structure Response where
  status : ℕ
  body : List UInt8

/-- `is_success` -/
def Response.isSuccess (r : Response) : Bool := 200 ≤ r.status ∧ r.status < 300

/-- The status of what is not there. -/
def notFound : ℕ := 404

/-- The client and the servers behind it. `none` is a request that fails. -/
class Http (N : Type) where
  send : N → Request → Option Response × N

section Objects

variable {N O : Type} [Http N] (object : String → Option O) (contents : N → O → Option (List UInt8))

/-- If the URL names an object, a `GET` answers what the object is, or that there is none. -/
def Gets (url : String) (headers : List (String × String)) : Prop :=
  ∀ o, object url = some o → ∀ n, ∃ r n',
    Http.send n ⟨.get, url, headers, .empty⟩ = (some r, n') ∧ contents n' = contents n ∧
      match contents n o with
      | some data => r.isSuccess = true ∧ r.body = data
      | none => r.status = notFound

/-- If the URL names an object, the request makes it this, and no other object changes. -/
def Writes [DecidableEq O] (request : Request) (url : String) (value : Option (List UInt8)) :
    Prop :=
  ∀ o, object url = some o → ∀ n, ∃ r n', Http.send n request = (some r, n') ∧
    r.isSuccess = true ∧ contents n' = Function.update (contents n) o value

end Objects

theorem Response.isSuccess_ne {r : Response} (h : r.isSuccess = true) : r.status ≠ notFound := by
  have hstatus := of_decide_eq_true h
  unfold notFound
  omega

end Argunix.Lib
