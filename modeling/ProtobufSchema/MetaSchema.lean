import ProtobufSchema.Message.Decode
import ProtobufSchema.Pool

/-! The schema of schemas: the file that declares the types of descriptors and of their options. It
stands behind every file. -/

namespace ProtobufSchema

namespace MetaSchema

def member (label : Label) (type : FieldType) (name : String) (number : Int32) : FieldDescriptor :=
  { name? := some name, number? := some number, label? := some label, type? := some type
    jsonName? := some (Name.jsonName name) }

def one (type : FieldType) (name : String) (number : Int32) : FieldDescriptor :=
  member .optional type name number

def many (type : FieldType) (name : String) (number : Int32) : FieldDescriptor :=
  member .repeated type name number

def of (f : FieldDescriptor) (typeName : String) : FieldDescriptor :=
  { f with typeName? := some (".google.protobuf." ++ typeName) }

def withDefault (f : FieldDescriptor) (text : String) : FieldDescriptor :=
  { f with defaultValue? := some text }

def flag (name : String) (number : Int32) : FieldDescriptor :=
  withDefault (one .bool name number) "false"

def marked (f : FieldDescriptor) (option : UInt32) : FieldDescriptor :=
  let message := (Message.empty OptionsKind.field.typeName).set option .bool (.bool true)
  { f with options := some ⟨.field, message, []⟩ }

def deprecated (f : FieldDescriptor) : FieldDescriptor := marked f 3

def packed (f : FieldDescriptor) : FieldDescriptor := marked f 2

def type (name : String) (fields : List FieldDescriptor) : MessageDescriptor :=
  { name? := some name, fields := fields }

def values (name : String) (pairs : List (String × Int32)) : EnumDescriptor :=
  { name? := some name
    values := pairs.map fun (name, number) => { name? := some name, number? := some number } }

def reserving (m : MessageDescriptor) (numbers : List Int32) : MessageDescriptor :=
  { m with reservedRanges := numbers.map fun n => ⟨some n, some (n + 1)⟩ }

/-- An options type: its own fields, the assignments that wait to be interpreted, and room for
extensions above. -/
def optionsType (name : String) (fields : List FieldDescriptor) : MessageDescriptor :=
  { name? := some name
    fields := fields ++ [of (many .message "uninterpreted_option" 999) "UninterpretedOption"]
    extensionRanges := [{ start? := some 1000, stop? := some (maxFieldNumber + 1) }] }

def fileType : MessageDescriptor :=
  type "FileDescriptorProto" [
    one .string "name" 1,
    one .string "package" 2,
    many .string "dependency" 3,
    many .int32 "public_dependency" 10,
    many .int32 "weak_dependency" 11,
    of (many .message "message_type" 4) "DescriptorProto",
    of (many .message "enum_type" 5) "EnumDescriptorProto",
    of (many .message "service" 6) "ServiceDescriptorProto",
    of (many .message "extension" 7) "FieldDescriptorProto",
    of (one .message "options" 8) "FileOptions",
    of (one .message "source_code_info" 9) "SourceCodeInfo",
    one .string "syntax" 12]

def messageType : MessageDescriptor :=
  { type "DescriptorProto" [
      one .string "name" 1,
      of (many .message "field" 2) "FieldDescriptorProto",
      of (many .message "extension" 6) "FieldDescriptorProto",
      of (many .message "nested_type" 3) "DescriptorProto",
      of (many .message "enum_type" 4) "EnumDescriptorProto",
      of (many .message "extension_range" 5) "DescriptorProto.ExtensionRange",
      of (many .message "oneof_decl" 8) "OneofDescriptorProto",
      of (one .message "options" 7) "MessageOptions",
      of (many .message "reserved_range" 9) "DescriptorProto.ReservedRange",
      many .string "reserved_name" 10] with
    nestedTypes := [
      type "ExtensionRange" [
        one .int32 "start" 1,
        one .int32 "end" 2,
        of (one .message "options" 3) "ExtensionRangeOptions"],
      type "ReservedRange" [one .int32 "start" 1, one .int32 "end" 2]] }

def fieldType : MessageDescriptor :=
  { type "FieldDescriptorProto" [
      one .string "name" 1,
      one .int32 "number" 3,
      of (one .enum "label" 4) "FieldDescriptorProto.Label",
      of (one .enum "type" 5) "FieldDescriptorProto.Type",
      one .string "type_name" 6,
      one .string "extendee" 2,
      one .string "default_value" 7,
      one .int32 "oneof_index" 9,
      one .string "json_name" 10,
      of (one .message "options" 8) "FieldOptions",
      one .bool "proto3_optional" 17] with
    enumTypes := [
      values "Type" [
        ("TYPE_DOUBLE", 1), ("TYPE_FLOAT", 2), ("TYPE_INT64", 3), ("TYPE_UINT64", 4),
        ("TYPE_INT32", 5), ("TYPE_FIXED64", 6), ("TYPE_FIXED32", 7), ("TYPE_BOOL", 8),
        ("TYPE_STRING", 9), ("TYPE_GROUP", 10), ("TYPE_MESSAGE", 11), ("TYPE_BYTES", 12),
        ("TYPE_UINT32", 13), ("TYPE_ENUM", 14), ("TYPE_SFIXED32", 15), ("TYPE_SFIXED64", 16),
        ("TYPE_SINT32", 17), ("TYPE_SINT64", 18)],
      values "Label" [("LABEL_OPTIONAL", 1), ("LABEL_REQUIRED", 2), ("LABEL_REPEATED", 3)]] }

def oneofType : MessageDescriptor :=
  type "OneofDescriptorProto" [one .string "name" 1, of (one .message "options" 2) "OneofOptions"]

def enumType : MessageDescriptor :=
  { type "EnumDescriptorProto" [
      one .string "name" 1,
      of (many .message "value" 2) "EnumValueDescriptorProto",
      of (one .message "options" 3) "EnumOptions",
      of (many .message "reserved_range" 4) "EnumDescriptorProto.EnumReservedRange",
      many .string "reserved_name" 5] with
    nestedTypes := [type "EnumReservedRange" [one .int32 "start" 1, one .int32 "end" 2]] }

def enumValueType : MessageDescriptor :=
  type "EnumValueDescriptorProto" [
    one .string "name" 1,
    one .int32 "number" 2,
    of (one .message "options" 3) "EnumValueOptions"]

def serviceType : MessageDescriptor :=
  type "ServiceDescriptorProto" [
    one .string "name" 1,
    of (many .message "method" 2) "MethodDescriptorProto",
    of (one .message "options" 3) "ServiceOptions"]

def methodType : MessageDescriptor :=
  type "MethodDescriptorProto" [
    one .string "name" 1,
    one .string "input_type" 2,
    one .string "output_type" 3,
    of (one .message "options" 4) "MethodOptions",
    flag "client_streaming" 5,
    flag "server_streaming" 6]

def fileOptions : MessageDescriptor :=
  { reserving (optionsType "FileOptions" [
      one .string "java_package" 1,
      one .string "java_outer_classname" 8,
      flag "java_multiple_files" 10,
      deprecated (one .bool "java_generate_equals_and_hash" 20),
      flag "java_string_check_utf8" 27,
      withDefault (of (one .enum "optimize_for" 9) "FileOptions.OptimizeMode") "SPEED",
      one .string "go_package" 11,
      flag "cc_generic_services" 16,
      flag "java_generic_services" 17,
      flag "py_generic_services" 18,
      flag "deprecated" 23,
      withDefault (one .bool "cc_enable_arenas" 31) "true",
      one .string "objc_class_prefix" 36,
      one .string "csharp_namespace" 37,
      one .string "swift_prefix" 39,
      one .string "php_class_prefix" 40,
      one .string "php_namespace" 41,
      one .string "php_metadata_namespace" 44,
      one .string "ruby_package" 45]) [42, 38] with
    enumTypes := [values "OptimizeMode" [("SPEED", 1), ("CODE_SIZE", 2), ("LITE_RUNTIME", 3)]] }

def messageOptions : MessageDescriptor :=
  reserving (optionsType "MessageOptions" [
    flag "message_set_wire_format" 1,
    flag "no_standard_descriptor_accessor" 2,
    flag "deprecated" 3,
    one .bool "map_entry" 7,
    deprecated (one .bool "deprecated_legacy_json_field_conflicts" 11)]) [4, 5, 6, 8, 9]

def fieldOptions : MessageDescriptor :=
  { reserving (optionsType "FieldOptions" [
      withDefault (of (one .enum "ctype" 1) "FieldOptions.CType") "STRING",
      one .bool "packed" 2,
      withDefault (of (one .enum "jstype" 6) "FieldOptions.JSType") "JS_NORMAL",
      flag "lazy" 5,
      flag "unverified_lazy" 15,
      flag "deprecated" 3,
      flag "weak" 10,
      flag "debug_redact" 16,
      of (one .enum "retention" 17) "FieldOptions.OptionRetention",
      of (many .enum "targets" 19) "FieldOptions.OptionTargetType"]) [4, 18] with
    enumTypes := [
      values "CType" [("STRING", 0), ("CORD", 1), ("STRING_PIECE", 2)],
      values "JSType" [("JS_NORMAL", 0), ("JS_STRING", 1), ("JS_NUMBER", 2)],
      values "OptionRetention" [
        ("RETENTION_UNKNOWN", 0), ("RETENTION_RUNTIME", 1), ("RETENTION_SOURCE", 2)],
      values "OptionTargetType" [
        ("TARGET_TYPE_UNKNOWN", 0), ("TARGET_TYPE_FILE", 1), ("TARGET_TYPE_EXTENSION_RANGE", 2),
        ("TARGET_TYPE_MESSAGE", 3), ("TARGET_TYPE_FIELD", 4), ("TARGET_TYPE_ONEOF", 5),
        ("TARGET_TYPE_ENUM", 6), ("TARGET_TYPE_ENUM_ENTRY", 7), ("TARGET_TYPE_SERVICE", 8),
        ("TARGET_TYPE_METHOD", 9)]] }

def enumOptions : MessageDescriptor :=
  reserving (optionsType "EnumOptions" [
    one .bool "allow_alias" 2,
    flag "deprecated" 3,
    deprecated (one .bool "deprecated_legacy_json_field_conflicts" 6)]) [5]

def enumValueOptions : MessageDescriptor :=
  optionsType "EnumValueOptions" [flag "deprecated" 1, flag "debug_redact" 3]

def methodOptions : MessageDescriptor :=
  { optionsType "MethodOptions" [
      flag "deprecated" 33,
      withDefault (of (one .enum "idempotency_level" 34) "MethodOptions.IdempotencyLevel")
        "IDEMPOTENCY_UNKNOWN"] with
    enumTypes := [
      values "IdempotencyLevel" [
        ("IDEMPOTENCY_UNKNOWN", 0), ("NO_SIDE_EFFECTS", 1), ("IDEMPOTENT", 2)]] }

def uninterpretedOption : MessageDescriptor :=
  { type "UninterpretedOption" [
      of (many .message "name" 2) "UninterpretedOption.NamePart",
      one .string "identifier_value" 3,
      one .uint64 "positive_int_value" 4,
      one .int64 "negative_int_value" 5,
      one .double "double_value" 6,
      one .bytes "string_value" 7,
      one .string "aggregate_value" 8] with
    nestedTypes := [
      type "NamePart" [
        member .required .string "name_part" 1,
        member .required .bool "is_extension" 2]] }

def sourceCodeInfo : MessageDescriptor :=
  { type "SourceCodeInfo" [of (many .message "location" 1) "SourceCodeInfo.Location"] with
    nestedTypes := [
      type "Location" [
        packed (many .int32 "path" 1),
        packed (many .int32 "span" 2),
        one .string "leading_comments" 3,
        one .string "trailing_comments" 4,
        many .string "leading_detached_comments" 6]] }

def generatedCodeInfo : MessageDescriptor :=
  { type "GeneratedCodeInfo" [of (many .message "annotation" 1) "GeneratedCodeInfo.Annotation"] with
    nestedTypes := [
      { type "Annotation" [
          packed (many .int32 "path" 1),
          one .string "source_file" 2,
          one .int32 "begin" 3,
          one .int32 "end" 4,
          of (one .enum "semantic" 5) "GeneratedCodeInfo.Annotation.Semantic"] with
        enumTypes := [values "Semantic" [("NONE", 0), ("SET", 1), ("ALIAS", 2)]] }] }

def options : Message :=
  let text (number : UInt32) (s : String) (m : Message) : Message :=
    m.set number .string (.string s)
  Message.empty OptionsKind.file.typeName
    |> text 11 "google.golang.org/protobuf/types/descriptorpb"
    |> text 1 "com.google.protobuf"
    |> text 8 "DescriptorProtos"
    |> text 37 "Google.Protobuf.Reflection"
    |> text 36 "GPB"
    |> fun m => (m.set 31 .bool (.bool true)).set 9 .enum (.enum 1)

def proto : FileDescriptor :=
  { name? := some metaSchemaFile
    package? := some reservedPackage
    messageTypes := [
      type "FileDescriptorSet" [of (many .message "file" 1) "FileDescriptorProto"],
      fileType,
      messageType,
      optionsType "ExtensionRangeOptions" [],
      fieldType,
      oneofType,
      enumType,
      enumValueType,
      serviceType,
      methodType,
      fileOptions,
      messageOptions,
      fieldOptions,
      optionsType "OneofOptions" [],
      enumOptions,
      enumValueOptions,
      optionsType "ServiceOptions" [flag "deprecated" 33],
      methodOptions,
      uninterpretedOption,
      sourceCodeInfo,
      generatedCodeInfo]
    options := some ⟨.file, options, []⟩ }

def file : LinkedFile := LinkedFile.link proto []

/-- Reads options by this schema alone, so that custom ones stay bytes. -/
def decodeContext : DecodeContext := ⟨file.types, none⟩

end MetaSchema

def Pool.full (f : LinkedFile) : Pool := (ofFile f).withFallback MetaSchema.file

end ProtobufSchema
