import LfWaap.Python.Json

/-!
# HTTP requests

The unit of inspection (`waf.domain.model.http_request`). Building a request
upper-cases the method and lower-cases the header names; of two headers whose names
become equal, the later one wins in the place of the earlier one, as in any
dictionary. Both normal forms are fields of `Waf.HttpRequest`.

A header *value* is annotated as text, but the constructor does not look at it, and
one producer of requests hands over whatever a JSON document holds. So it is a
`Python.Json` here.
-/

namespace Waf

open Python

variable [Interpreter]

/-- **A request.** Its method is in upper case and its header names are in lower
case. -/
structure HttpRequest where
  method : Text
  path : Text
  query : Text
  headers : Dict Text Json
  body : Text
  clientIp : Text
  /-- The constructor normalises the method. -/
  method_upper : upper method = method
  /-- The constructor normalises the header names. -/
  headers_lower : ∀ k ∈ headers.keys, lower k = k

/-- The header mapping with its names in lower case. -/
def lowerHeaders (headers : Dict Text Json) : Dict Text Json :=
  Dict.ofList (headers.entries.map fun e => (lower e.1, e.2))

theorem lower_of_mem_lowerHeaders (headers : Dict Text Json) :
    ∀ k ∈ (lowerHeaders headers).keys, lower k = k := by
  intro k hk
  obtain ⟨e, he, rfl⟩ := List.mem_map.mp (Dict.mem_of_mem_keys_ofList hk)
  obtain ⟨e', -, rfl⟩ := List.mem_map.mp he
  exact Interpreter.lower_lower e'.1

/-- Names in lower case are left alone. -/
theorem lowerHeaders_of_lower {headers : Dict Text Json}
    (h : ∀ k ∈ headers.keys, lower k = k) : lowerHeaders headers = headers := by
  have hmap : headers.entries.map (fun e => (lower e.1, e.2)) = headers.entries := by
    refine (List.map_congr_left fun e he => ?_).trans (List.map_id _)
    rw [h e.1 (List.mem_map.mpr ⟨e, he, rfl⟩)]
    rfl
  rw [lowerHeaders, hmap, Dict.ofList_entries]

/-- The constructor of the source. -/
def HttpRequest.new (method path : Text) (query : Text := []) (headers : Dict Text Json := .empty)
    (body : Text := []) (clientIp : Text := []) : HttpRequest where
  method := upper method
  path := path
  query := query
  headers := lowerHeaders headers
  body := body
  clientIp := clientIp
  method_upper := Interpreter.upper_upper method
  headers_lower := lower_of_mem_lowerHeaders headers

@[ext] theorem HttpRequest.ext {r s : HttpRequest} (h₁ : r.method = s.method)
    (h₂ : r.path = s.path) (h₃ : r.query = s.query) (h₄ : r.headers = s.headers)
    (h₅ : r.body = s.body) (h₆ : r.clientIp = s.clientIp) : r = s := by
  cases r
  cases s
  simp_all

/-- A request is rebuilt from its fields. -/
theorem HttpRequest.new_fields (r : HttpRequest) :
    HttpRequest.new r.method r.path r.query r.headers r.body r.clientIp = r :=
  HttpRequest.ext r.method_upper rfl rfl (lowerHeaders_of_lower r.headers_lower) rfl rfl

/-- The surface detectors scan: path, query and body. -/
def HttpRequest.inspectablePayload (r : HttpRequest) : Text :=
  if r.query = [] then r.path ++ text "\n" ++ r.body
  else r.path ++ text "?" ++ r.query ++ text "\n" ++ r.body

end Waf
