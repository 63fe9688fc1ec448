import ConfigSteward.Http.Route
import ConfigSteward.Proofs.Files.Written

/-!
# Where requests go

Of the routes with a request's method the first one whose pattern fits is taken. The requests to save
go to the endpoints that save, whatever the name of a server file is.
-/
namespace ConfigSteward.Http

variable {e : Endpoint} {name : List Char}

/-- The first route of the table that has the method and fits is taken. -/
theorem dispatch_of_first {method path : String} (before after : List Route) {route : Route}
    (htable : Route.table = before ++ route :: after) (hmethod : route.method = method)
    (hbefore : ∀ r ∈ before, r.method = method → r.match? path = none)
    (hmatch : route.match? path = some e) : dispatch method path = .endpoint e := by
  have hnone : (before.filterMap fun r => (r.match? path).map fun e => (r.method, e)).find?
      (·.1 = method) = none := by
    refine List.find?_eq_none.mpr fun x hx hsame => ?_
    obtain ⟨r, hr, hsome⟩ := List.mem_filterMap.mp hx
    obtain ⟨e', he', rfl⟩ := Option.map_eq_some_iff.mp hsome
    rw [hbefore r hr (by simpa using hsame)] at he'
    cases he'
  simp [dispatch, htable, List.filterMap_append, List.find?_append, hnone, hmatch, hmethod]

theorem dispatch_config : dispatch "PUT" "/api/config" = .endpoint .saveConfig := by decide

private theorem piecesOf_server (hslash : '/' ∉ name) :
    Route.piecesOf ("/api/servers/".toList ++ name)
      = ["", "api", "servers", String.ofList name] := by
  have hpath : "/api/servers/".toList ++ name
      = [] ++ '/' :: ("api".toList ++ '/' :: ("servers".toList ++ '/' :: name)) := rfl
  rw [Route.piecesOf, hpath, Path.pieces_append_slash (by decide),
    Path.pieces_append_slash (by decide), Path.pieces_append_slash (by decide),
    Path.pieces_of_no_slash hslash]
  rfl

/-- Every name without a slash is one for a server file. -/
theorem dispatch_server {name : String} (hname : name ≠ "") (hslash : '/' ∉ name.toList) :
    dispatch "PUT" ("/api/servers/" ++ name) = .endpoint (.saveServer name) := by
  have hne : name.toList ≠ [] := fun heq => hname (String.toList_eq_nil_iff.mp heq)
  have hshorter : '/' ∉ name.toList.dropLast := fun h => hslash (List.dropLast_subset _ h)
  refine dispatch_of_first (Route.table.take 9) (Route.table.drop 10) rfl rfl (fun r hr hput => ?_) ?_
  -- The pattern of the only route before has fewer pieces, also without a line break at the end.
  · have hpattern : r.pattern = Route.below [.fixed "config"] := by
      revert r
      decide
    have hexact : Route.capture? r.pattern (Route.piecesOf ("/api/servers/" ++ name).toList)
        = none := by
      rw [hpattern, String.toList_append, piecesOf_server hslash]
      rfl
    have hbroken : Route.capture? r.pattern
        (Route.piecesOf ("/api/servers/" ++ name).toList.dropLast) = none := by
      rw [hpattern, String.toList_append, List.dropLast_append_of_ne_nil hne,
        piecesOf_server hshorter]
      rfl
    simp only [Route.match?, hexact, hbroken, ite_self, Option.map_none]
  · have hexact : Route.capture? (Route.below [.fixed "servers", .any])
        (Route.piecesOf ("/api/servers/" ++ name).toList) = some name := by
      rw [String.toList_append, piecesOf_server hslash, String.ofList_toList]
      simp [Route.below, Route.capture?, hname]
    simp only [Route.match?, hexact, Option.map_some]

end ConfigSteward.Http
