import ShadowImpl.Engine

/-!
# The nodes of the grammar

What has been read is turned into syntax node by node, each by a handler for nodes of its name.
-/

namespace ShadowImpl.Grammar

/-- The names that the rules of the grammar give to nodes. A rule makes no node if others only quote
it, or if it always comes to the node of another rule. -/
def nodes : List String :=
  ["impl_unit", "assoc_item_entry", "meta_list", "ident_list", "predicate_list",
    "attrs", "outer_attr", "doc_attr", "inner_attr", "inner_doc_attr", "meta", "meta_path",
    "meta_value",
    "impl_block", "header_type", "impl_for", "for_type", "impl_body", "assoc_item", "method",
    "fn_head", "visibility", "fn_qualifier", "fn_body", "return_type", "assoc_const", "assoc_type",
    "assoc_macro",
    "generic_params", "type_param", "lifetime_param", "const_param", "const_default",
    "lifetime_bounds", "where_clause", "type_predicate", "lifetime_predicate", "for_lifetimes",
    "bounds", "trait_bound", "lifetime_bound",
    "path_type", "qualified_path_type", "qself_as", "path", "path_segment", "sugar_segment",
    "fn_sugar_args", "generic_args", "lifetime_arg", "assoc_binding", "assoc_constraint",
    "const_arg", "ref_type", "ptr_type", "unit_type", "paren_type", "tuple_type", "slice_type",
    "array_type", "array_len", "never_type", "impl_trait_type", "dyn_trait_type", "fn_ptr_type",
    "fn_abi", "fn_ptr_args", "fn_ptr_arg",
    "delim_paren", "delim_bracket", "delim_brace"]

/-- The names that there are handlers for. -/
def handlers : List String :=
  ["impl_unit", "assoc_item_entry", "meta_list", "ident_list", "predicate_list",
    "attrs", "outer_attr", "inner_attr", "doc_attr", "inner_doc_attr", "meta", "meta_path",
    "meta_value",
    "impl_block", "header_type", "for_type", "impl_for", "impl_body", "assoc_item", "method",
    "fn_head", "visibility", "fn_qualifier", "fn_body", "return_type", "assoc_const", "assoc_type",
    "assoc_macro",
    "generic_params", "type_param", "lifetime_param", "const_param", "const_default",
    "lifetime_bounds", "where_clause", "type_predicate", "lifetime_predicate", "for_lifetimes",
    "bounds", "trait_bound", "lifetime_bound",
    "path_type", "qualified_path_type", "qself_as", "path", "path_segment", "sugar_segment",
    "fn_sugar_args", "generic_args", "lifetime_arg", "assoc_binding", "assoc_constraint",
    "const_arg", "ref_type", "ptr_type", "unit_type", "paren_type", "tuple_type", "slice_type",
    "array_type", "array_len", "never_type", "impl_trait_type", "dyn_trait_type", "fn_ptr_type",
    "fn_abi", "fn_ptr_args", "fn_ptr_arg",
    "delim_paren", "delim_bracket", "delim_brace"]

/-- Finds the handler for the nodes of a name. -/
def dispatch (node : String) : Except Abort Unit :=
  if handlers.contains node then .ok () else .error (.unhandled node)

end ShadowImpl.Grammar
